import LinuxLabs.Execution
import LinuxLabs.LineClient
import LinuxLabs.UdpLoggers

/-! # The Unix domain logger and its clients (lab 03)
The clients read lines and send each as one datagram to the server's socket, which is a queue: a
datagram is neither lost nor overtaken there. Before the server is up a `sendto` fails, and the
client goes on with its next line. -/
namespace UnixLogger

open Execution CString LineInput LineClient Journal
open UdpLoggers (Tm strftime)

/-- `file` is what the server has written to its log. The messages `sendto` failed for, those it
took and those the server received are history. -/
structure State where
  up : Bool
  queue : List (ℕ × List Byte)
  file : List Byte
  clients : ℕ → Client
  refused : ℕ → List (List Byte)
  sent : ℕ → List (List Byte)
  received : List (Tm × ℕ × List Byte)

def initial (input : ℕ → List Byte) : State :=
  ⟨false, [], [], fun c => start (input c), fun _ => [], fun _ => [], []⟩

/-- `round` is one of the loop of client `c`, and `receive` one of the server's. -/
inductive Event where
  | bind
  | round (c : ℕ)
  | receive (now : Tm)
  deriving DecidableEq

def Enabled (s : State) : Event → Prop
  | .bind => s.up = false
  | .round c => (s.clients c).closed = false
  | .receive _ => s.up = true ∧ s.queue ≠ []

/-- The format up to the message. -/
def header (now : Tm) : List Byte := ascii "[" ++ strftime now ++ ascii "] "

/-- What the server prints for these bytes. -/
def body (bytes : List Byte) : List Byte := cstr (bytes.take (bufSize - 1)) ++ [newline]

def State.sendto (s : State) (c : ℕ) (bytes : List Byte) : State :=
  if s.up then
    { s with
      queue := s.queue ++ [(c, bytes)]
      sent := Function.update s.sent c (s.sent c ++ [bytes]) }
  else
    { s with refused := Function.update s.refused c (s.refused c ++ [bytes]) }

def next (s : State) : Event → State
  | .bind => { s with up := true }
  | .round c =>
    let (client, message) := (s.clients c).round
    let s := { s with clients := Function.update s.clients c client }
    match message with
    | none => s
    | some bytes => s.sendto c bytes
  | .receive now =>
    match s.queue with
    | [] => s
    | (c, bytes) :: queue =>
      { s with
        queue := queue
        file := if bytes = [] then s.file else s.file ++ (header now ++ body bytes)
        received := s.received ++ [(now, c, bytes)] }

def machine (input : ℕ → List Byte) : Machine State Event := ⟨initial input, Enabled, next⟩

instance (input : ℕ → List Byte) (s : State) (e : Event) :
    Decidable ((machine input).Enabled s e) := by
  simp only [machine]
  casesm Event <;> simp only [Enabled] <;> infer_instance

/-- What the server logs of the datagrams it received: the empty ones are skipped. -/
def records (received : List (Tm × ℕ × List Byte)) : List (Tm × List Byte) :=
  received.filterMap fun r => if r.2.2 = [] then none else some (r.1, r.2.2 ++ [newline])

/-- What client `c` has among these datagrams, in this order. -/
def sentBy (c : ℕ) (datagrams : List (ℕ × List Byte)) : List (List Byte) :=
  (datagrams.filter fun d => d.1 = c).map Prod.snd

structure Invariant (input : ℕ → List Byte) (s : State) : Prop where
  client : ∀ c, Sound (input c) (s.clients c)
  handed : ∀ c, (s.clients c).handed = s.refused c ++ s.sent c
  down : s.up = false → ∀ c, s.sent c = []
  order : ∀ c, sentBy c (s.received.map Prod.snd) ++ sentBy c s.queue = s.sent c
  file : s.file = text header (records s.received)

variable {input : ℕ → List Byte} {s : State} {c : ℕ} {now : Tm}

/-! ## The format -/

theorem headers : Headers newline header := by
  constructor
  · intro now
    simp only [header, strftime, UdpLoggers.twoDigits, List.mem_append, UdpLoggers.newline_decimal,
      or_false, false_or]
    decide
  · intro now
    simp [header, ascii]
  · intro t t' r r' h
    simp only [header, List.append_assoc] at h
    rw [List.append_right_inj] at h
    obtain ⟨ht, h⟩ := UdpLoggers.strftime_append_inj h
    exact ⟨ht, List.append_cancel_left h⟩

/-- The blank line behind a message is no entry. -/
theorem not_headed_newline : ¬ Headed header [newline] := by
  rintro ⟨now, r, h⟩
  simp only [header, List.append_assoc] at h
  exact absurd (List.cons.inj h).1 (by decide)

theorem plain_body {m : List Byte} (h : Line m) : Plain newline header (m ++ [newline]) := by
  intro u v heq hhead
  rcases List.append_eq_append_iff.mp heq with ⟨w, -, hw⟩ | ⟨w, rfl, hw⟩
  · have hlen := congrArg List.length hw
    simp only [List.length_append, List.length_cons, List.length_nil] at hlen
    exact hhead.ne_nil headers (List.eq_nil_of_length_eq_zero (by omega))
  · cases w with
    | nil =>
      obtain ⟨-, rfl⟩ := List.cons.inj hw
      exact hhead.ne_nil headers rfl
    | cons b w =>
      obtain ⟨rfl, rfl⟩ := List.cons.inj hw
      obtain rfl := h.no_newline_before
      exact not_headed_newline hhead

theorem separable_records {received : List (Tm × ℕ × List Byte)}
    (h : ∀ r ∈ received, Line r.2.2) : Separable newline header (records received) := by
  induction received with
  | nil => trivial
  | cons r received ih =>
    have htail := ih fun x hx => h x (List.mem_cons_of_mem _ hx)
    by_cases hr : r.2.2 = []
    · rwa [records, List.filterMap_cons_none (by simp [hr])]
    · rw [records, List.filterMap_cons_some (b := (r.1, r.2.2 ++ [newline])) (by simp [hr])]
      exact ⟨fun _ => List.getLast?_concat, plain_body (h r List.mem_cons_self), htail⟩

theorem records_concat (received : List (Tm × ℕ × List Byte)) (now : Tm) (c : ℕ)
    (bytes : List Byte) : records (received ++ [(now, c, bytes)]) =
      records received ++ if bytes = [] then [] else [(now, bytes ++ [newline])] := by
  rw [records, List.filterMap_append, List.filterMap_cons, List.filterMap_nil]
  split_ifs <;> rfl

theorem text_append (es es' : List (Tm × List Byte)) :
    text header (es ++ es') = text header es ++ text header es' := List.flatMap_append

theorem mem_sentBy {datagrams : List (ℕ × List Byte)} {m : List Byte} :
    m ∈ sentBy c datagrams ↔ (c, m) ∈ datagrams := by
  simp [sentBy]

theorem sentBy_append (c : ℕ) (ds ds' : List (ℕ × List Byte)) :
    sentBy c (ds ++ ds') = sentBy c ds ++ sentBy c ds' := by
  simp [sentBy]

theorem Invariant.message (h : Invariant input s) {m : List Byte} (hm : m ∈ s.sent c) :
    Message m := by
  apply (h.client c).message
  rw [h.handed c]
  exact List.mem_append_right _ hm

/-- All of a message arrives in the server's buffer, and is printed. -/
theorem body_eq {m : List Byte} (h : Message m) : body m = m ++ [newline] := by
  rw [body, List.take_of_length_le h.fits, cstr_of_noNul h.noNul]

/-! ## Each step -/

theorem invariant_initial : Invariant input (initial input) :=
  ⟨fun c => Sound.start (input c), fun _ => rfl, fun _ _ => rfl, fun _ => rfl, rfl⟩

/-- A client's round, up to what it sends. -/
structure Sending (input : ℕ → List Byte) (s : State) (c : ℕ) (message : List (List Byte)) :
    Prop where
  client : ∀ d, Sound (input d) (s.clients d)
  handed : ∀ d, (s.clients d).handed =
    s.refused d ++ s.sent d ++ if d = c then message else []
  down : s.up = false → ∀ d, s.sent d = []
  order : ∀ d, sentBy d (s.received.map Prod.snd) ++ sentBy d s.queue = s.sent d
  file : s.file = text header (records s.received)

theorem sending_round (h : Invariant input s) (hopen : (s.clients c).closed = false) :
    Sending input { s with clients := Function.update s.clients c (s.clients c).round.1 } c
      (s.clients c).round.2.toList := by
  obtain ⟨hsound, hhanded⟩ := (h.client c).round hopen
  refine ⟨fun d => ?_, fun d => ?_, h.down, h.order, h.file⟩
  · by_cases hd : d = c
    · subst hd
      simpa using hsound
    · simpa [hd] using h.client d
  · by_cases hd : d = c
    · subst hd
      simpa [← h.handed d] using hhanded
    · simpa [hd] using h.handed d

theorem Sending.none (h : Sending input s c []) : Invariant input s := by
  refine ⟨h.client, fun d => ?_, h.down, h.order, h.file⟩
  have hd := h.handed d
  rwa [ite_self, List.append_nil] at hd

theorem Sending.sendto {bytes : List Byte} (h : Sending input s c [bytes]) :
    Invariant input (s.sendto c bytes) := by
  unfold State.sendto
  cases hup : s.up with
  | false =>
    refine ⟨h.client, fun d => ?_, fun _ => h.down hup, h.order, h.file⟩
    have hd := h.handed d
    rw [h.down hup d, List.append_nil] at hd
    by_cases hdc : d = c
    · subst hdc
      simpa [h.down hup d] using hd
    · simpa [hdc, h.down hup d] using hd
  | true =>
    refine ⟨h.client, fun d => ?_, nofun, fun d => ?_, h.file⟩
    · by_cases hdc : d = c
      · subst hdc
        simpa using h.handed d
      · simpa [hdc] using h.handed d
    · have horder := h.order d
      rw [if_pos rfl]
      dsimp only
      rw [sentBy_append, ← List.append_assoc, horder]
      by_cases hdc : d = c
      · subst hdc
        simp [sentBy]
      · simp [sentBy, hdc, Ne.symm hdc]

theorem invariant_receive (h : Invariant input s) {bytes : List Byte}
    {queue : List (ℕ × List Byte)} (hq : s.queue = (c, bytes) :: queue) :
    Invariant input { s with
      queue := queue
      file := if bytes = [] then s.file else s.file ++ (header now ++ body bytes)
      received := s.received ++ [(now, c, bytes)] } := by
  have hsent : bytes ∈ s.sent c := by
    rw [← h.order c]
    apply List.mem_append_right
    rw [mem_sentBy, hq]
    exact List.mem_cons_self
  refine ⟨h.client, h.handed, h.down, fun d => ?_, ?_⟩
  · have horder := h.order d
    rw [hq, ← List.singleton_append, sentBy_append, ← List.append_assoc] at horder
    rw [List.map_append, sentBy_append]
    exact horder
  · dsimp only
    rw [records_concat, text_append, ← h.file]
    split_ifs with hb
    · rw [text_nil, List.append_nil]
    · rw [body_eq (h.message hsent), text_cons, text_nil, List.append_nil]

theorem invariant_next {e : Event} (h : Invariant input s) (he : Enabled s e) :
    Invariant input (next s e) := by
  cases e with
  | bind => exact ⟨h.client, h.handed, nofun, h.order, h.file⟩
  | round c =>
    have hsending := sending_round h he
    simp only [next]
    cases hm : (s.clients c).round.2 with
    | none =>
      rw [hm] at hsending
      exact hsending.none
    | some bytes =>
      rw [hm] at hsending
      exact hsending.sendto
  | receive now =>
    simp only [next]
    cases hq : s.queue with
    | nil => exact absurd hq he.2
    | cons d queue => exact invariant_receive h hq

/-! ## The log -/

/-- The file can be read back, and each client's messages are in it, in its order. -/
structure Logged (input : ℕ → List Byte) (s : State) : Prop where
  file : s.file = text header (records s.received)
  readable : Readable newline header (records s.received)
  only : ∀ es, Readable newline header es → text header es = s.file → es = records s.received
  order : ∀ c, s.refused c ++ sentBy c (s.received.map Prod.snd) ++ sentBy c s.queue =
    (s.clients c).handed
  sound : ∀ c, Sound (input c) (s.clients c)
  whole : ∀ c, input c = (s.clients c).read.flatten ++ (s.clients c).rest

theorem Invariant.readable (h : Invariant input s) :
    Readable newline header (records s.received) := by
  apply (readable_iff headers _).mpr
  apply separable_records
  rintro ⟨now, c, bytes⟩ hr
  have hsent : bytes ∈ s.sent c := by
    rw [← h.order c]
    apply List.mem_append_left
    rw [mem_sentBy]
    exact List.mem_map_of_mem hr
  exact (h.message hsent).line

theorem lines_logged (input : ℕ → List Byte) {es : List Event} (h : (machine input).Valid es) :
    Logged input ((machine input).run es) := by
  have hinv : Invariant input ((machine input).run es) :=
    Machine.invariant (I := Invariant input) invariant_initial
      (fun _ _ hs he => invariant_next hs he) h
  have hread := hinv.readable
  refine ⟨hinv.file, hread, fun es hes htext => ?_, fun c => ?_, hinv.client,
    fun c => (hinv.client c).reads.input_eq⟩
  · apply Journal.text_injective headers hes hread
    rw [htext, hinv.file]
  · rw [List.append_assoc, hinv.order c, hinv.handed c]

/-- The first client speaks before the server is there, and the second one writes a header. -/
def forgingInput (c : ℕ) : List Byte :=
  if c = 0 then ascii "early\nlate\nexit\nmore\n" else ascii "[2024-05-01 12:00:00] no\nend"

def forgingRun : List Event :=
  [.round 0, .bind, .round 1, .round 0, .round 1, .receive UdpLoggers.noon,
    .receive UdpLoggers.noon, .round 0, .round 1]

theorem lines_logged_forging :
    Logged forgingInput ((machine forgingInput).run forgingRun) ∧
      ((machine forgingInput).run forgingRun).file =
        ascii "[2024-05-01 12:00:00] [2024-05-01 12:00:00] no\n\n[2024-05-01 12:00:00] late\n\n" ∧
      ((machine forgingInput).run forgingRun).queue = [(1, ascii "end")] :=
  ⟨lines_logged forgingInput (by decide +kernel), by decide +kernel, by decide +kernel⟩

end UnixLogger
