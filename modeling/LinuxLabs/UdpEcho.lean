import LinuxLabs.CString
import LinuxLabs.Execution
import Mathlib.Algebra.Order.Group.Multiset
import Mathlib.Data.List.TakeDrop

/-! # The UDP echo server and its clients (lab 02)
Neither a request nor an echo carries a number. The network may lose a datagram, reorder the
datagrams and deliver one twice. -/
namespace UdpEcho

open Execution CString

def bufferSize : ℕ := 1024

/-- A request of the client or an echo to it. -/
structure Datagram where
  client : ℕ
  text : List Byte
  deriving DecidableEq

/-- `buffer` is the string in the client's buffer; `sent` and `printed` are history. -/
structure Client where
  waiting : Bool
  buffer : List Byte
  sent : List (List Byte)
  printed : List (List Byte)

/-- `held` is the request the server has received and not answered yet. -/
structure State where
  requests : Multiset Datagram
  replies : Multiset Datagram
  held : Option Datagram
  clients : ℕ → Client

def initial : State := ⟨0, 0, none, fun _ => ⟨false, [], [], []⟩⟩

/-- `input` is what `fgets` returns, `none` at the end of the input. -/
inductive Event where
  | input (c : ℕ) (line : Option (List Byte))
  | receive (d : Datagram)
  | reply
  | print (d : Datagram)
  | loseRequest (d : Datagram)
  | loseReply (d : Datagram)
  | copyRequest (d : Datagram)
  | copyReply (d : Datagram)
  deriving DecidableEq

/-- The end of the input comes after some line. -/
def Enabled (s : State) : Event → Prop
  | .input c line => (s.clients c).waiting = false ∧
      match line with
      | some line => line.length < bufferSize
      | none => (s.clients c).sent ≠ []
  | .receive d => d ∈ s.requests ∧ s.held = none
  | .reply => s.held ≠ none
  | .print d => d ∈ s.replies ∧ (s.clients d.client).waiting = true
  | .loseRequest d | .copyRequest d => d ∈ s.requests
  | .loseReply d | .copyReply d => d ∈ s.replies

/-- At the end of the input `fgets` leaves the buffer as it is. -/
def Client.read (c : Client) (line : Option (List Byte)) : List Byte :=
  cutNewline (match line with
    | some line => cstr line
    | none => c.buffer)

def Client.send (c : Client) (line : Option (List Byte)) : Client :=
  { c with waiting := true, buffer := c.read line, sent := c.sent ++ [c.read line] }

def Client.receive (c : Client) (text : List Byte) : Client :=
  let echo := cstr (text.take bufferSize)
  { c with waiting := false, buffer := echo, printed := c.printed ++ [echo] }

def next (s : State) : Event → State
  | .input c line =>
    { s with
      requests := ⟨c, (s.clients c).read line⟩ ::ₘ s.requests
      clients := Function.update s.clients c ((s.clients c).send line) }
  | .receive d =>
    { s with
      requests := s.requests.erase d
      held := some ⟨d.client, d.text.take bufferSize⟩ }
  | .reply =>
    match s.held with
    | some d => { s with replies := d ::ₘ s.replies, held := none }
    | none => s
  | .print d =>
    { s with
      replies := s.replies.erase d
      clients := Function.update s.clients d.client ((s.clients d.client).receive d.text) }
  | .loseRequest d => { s with requests := s.requests.erase d }
  | .loseReply d => { s with replies := s.replies.erase d }
  | .copyRequest d => { s with requests := d ::ₘ s.requests }
  | .copyReply d => { s with replies := d ::ₘ s.replies }

def machine : Machine State Event := ⟨initial, Enabled, next⟩

instance (s : State) (e : Event) : Decidable (machine.Enabled s e) := by
  simp only [machine]
  casesm Event
  case input c line => cases line <;> simp only [Enabled] <;> infer_instance
  all_goals
    simp only [Enabled]
    infer_instance

/-- The places in a buffer at which a terminator is stored behind what was received. -/
def stores (_ : State) : Event → List ℕ
  | .receive d | .print d => [(d.text.take bufferSize).length]
  | _ => []

def NoCopy (_ : State) : Event → Prop
  | .copyRequest _ | .copyReply _ => False
  | _ => True

instance (s : State) (e : Event) : Decidable (NoCopy s e) := by
  casesm Event <;> simp only [NoCopy] <;> infer_instance

/-- How often a datagram of the client's was lost. -/
def losses (c : ℕ) (_ : State) : Event → List Datagram
  | .loseRequest d | .loseReply d => if d.client = c then [d] else []
  | _ => []

/-! ## What is under way -/

def State.flight (s : State) : Multiset Datagram :=
  s.requests + (s.held.elim 0 fun d => {d}) + s.replies

/-- How much of a client's is under way. -/
def State.outstanding (s : State) (c : ℕ) : ℕ := s.flight.countP fun d => d.client = c

/-- A datagram that a lab client has sent, or the echo of one. -/
structure Known (s : State) (d : Datagram) : Prop where
  sent : d.text ∈ (s.clients d.client).sent
  fits : d.text.length < bufferSize
  noNul : (0 : Byte) ∉ d.text

structure Invariant (s : State) : Prop where
  known : ∀ d ∈ s.flight, Known s d
  own : ∀ c, ∀ x ∈ (s.clients c).printed, x ∈ (s.clients c).sent
  buffer : ∀ c, (s.clients c).buffer.length < bufferSize ∧ (0 : Byte) ∉ (s.clients c).buffer

/-- What a client that waits has to wait for. -/
structure Ordered (lost : ℕ → ℕ) (s : State) : Prop where
  ledger : ∀ c, s.outstanding c + lost c = (s.clients c).waiting.toNat
  ready : ∀ c, (s.clients c).waiting = false → (s.clients c).sent = (s.clients c).printed
  awaiting : ∀ c, (s.clients c).waiting = true → ∃ x, (s.clients c).sent =
    (s.clients c).printed ++ [x] ∧ ∀ d ∈ s.flight, d.client = c → d.text = x

variable {s : State} {e : Event}

theorem flight_input (c : ℕ) (line : Option (List Byte)) :
    (next s (.input c line)).flight = ⟨c, (s.clients c).read line⟩ ::ₘ s.flight := by
  simp only [next, State.flight, Multiset.cons_add]

theorem take_of_known {d : Datagram} (h : d.text.length < bufferSize) :
    d.text.take bufferSize = d.text := List.take_of_length_le h.le

theorem flight_receive {d : Datagram} (he : Enabled s (.receive d))
    (h : d.text.length < bufferSize) : (next s (.receive d)).flight = s.flight := by
  obtain ⟨hmem, hheld⟩ := he
  have hcons := Multiset.cons_erase hmem
  simp only [next, State.flight, hheld, Option.elim, add_zero, take_of_known h]
  rw [Multiset.add_comm (s.requests.erase d), Multiset.singleton_add, hcons]

theorem flight_reply : (next s .reply).flight = s.flight := by
  cases hheld : s.held with
  | none => simp only [next, hheld]
  | some d =>
    simp only [next, State.flight, hheld, Option.elim, add_zero, Multiset.add_cons]
    rw [Multiset.add_assoc, Multiset.singleton_add, Multiset.add_cons]

theorem flight_requests {d : Datagram} (hmem : d ∈ s.requests) :
    d ::ₘ { s with requests := s.requests.erase d }.flight = s.flight := by
  simp only [State.flight, ← Multiset.cons_add, Multiset.cons_erase hmem]

theorem flight_replies {d : Datagram} (hmem : d ∈ s.replies) :
    d ::ₘ { s with replies := s.replies.erase d }.flight = s.flight := by
  simp only [State.flight, ← Multiset.add_cons, Multiset.cons_erase hmem]

theorem mem_flight {d : Datagram} (h : d ∈ s.requests ∨ d ∈ s.replies ∨ s.held = some d) :
    d ∈ s.flight := by
  rw [State.flight, Multiset.mem_add, Multiset.mem_add]
  rcases h with h | h | h
  · exact Or.inl (Or.inl h)
  · exact Or.inr h
  · rw [h]
    exact Or.inl (Or.inr (Multiset.mem_singleton_self d))

/-- What a step does to what is under way, and to the clients. -/
inductive Turn (s : State) : Event → State → Prop
  | sent {t} (c : ℕ) (line : Option (List Byte)) (idle : (s.clients c).waiting = false)
      (fits : ((s.clients c).read line).length < bufferSize)
      (flight : t.flight = ⟨c, (s.clients c).read line⟩ ::ₘ s.flight)
      (clients : t.clients = Function.update s.clients c ((s.clients c).send line)) :
      Turn s (.input c line) t
  | printed {t} (d : Datagram) (waits : (s.clients d.client).waiting = true)
      (flight : d ::ₘ t.flight = s.flight)
      (clients : t.clients =
        Function.update s.clients d.client ((s.clients d.client).receive d.text)) :
      Turn s (.print d) t
  | lost {t} (e : Event) (d : Datagram) (event : e = .loseRequest d ∨ e = .loseReply d)
      (flight : d ::ₘ t.flight = s.flight) (clients : t.clients = s.clients) : Turn s e t
  | copied {t} (e : Event) (d : Datagram) (event : e = .copyRequest d ∨ e = .copyReply d)
      (old : d ∈ s.flight) (flight : t.flight = d ::ₘ s.flight)
      (clients : t.clients = s.clients) : Turn s e t
  | moved {t} (e : Event) (event : (∃ d, e = .receive d) ∨ e = .reply)
      (flight : t.flight = s.flight) (clients : t.clients = s.clients) : Turn s e t

theorem cutNewline_length (x : List Byte) : (cutNewline x).length ≤ x.length :=
  (List.takeWhile_sublist _).length_le

theorem cutNewline_noNul {x : List Byte} (h : (0 : Byte) ∉ x) : (0 : Byte) ∉ cutNewline x :=
  fun hz => h ((List.takeWhile_sublist _).subset hz)

theorem next_turn (h : Invariant s) (he : Enabled s e) : Turn s e (next s e) := by
  cases e with
  | input c line =>
    refine .sent c line he.1 ?_ (flight_input c line) rfl
    refine Nat.lt_of_le_of_lt (cutNewline_length _) ?_
    obtain ⟨-, hline⟩ := he
    cases line with
    | some line => exact Nat.lt_of_le_of_lt (List.takeWhile_sublist _).length_le hline
    | none => exact (h.buffer c).1
  | receive d =>
    exact .moved _ (Or.inl ⟨d, rfl⟩)
      (flight_receive he (h.known d (mem_flight (Or.inl he.1))).fits) rfl
  | reply =>
    refine .moved _ (Or.inr rfl) flight_reply ?_
    simp only [next]
    split <;> rfl
  | print d => exact .printed d he.2 (flight_replies he.1) rfl
  | loseRequest d => exact .lost _ d (Or.inl rfl) (flight_requests he) rfl
  | loseReply d => exact .lost _ d (Or.inr rfl) (flight_replies he) rfl
  | copyRequest d =>
    exact .copied _ d (Or.inl rfl) (mem_flight (Or.inl he)) (by
      simp only [next, State.flight, Multiset.cons_add]) rfl
  | copyReply d =>
    exact .copied _ d (Or.inr rfl) (mem_flight (Or.inr (Or.inl he))) (by
      simp only [next, State.flight, Multiset.add_cons]) rfl

/-! ## Whatever the network does -/

theorem read_noNul (h : Invariant s) (c : ℕ) (line : Option (List Byte)) :
    (0 : Byte) ∉ (s.clients c).read line := by
  apply cutNewline_noNul
  cases line with
  | some line => exact cstr_noNul line
  | none => exact (h.buffer c).2

theorem receive_echo {c : Client} {d : Datagram} (hfits : d.text.length < bufferSize)
    (hnul : (0 : Byte) ∉ d.text) :
    c.receive d.text =
      { c with waiting := false, buffer := d.text, printed := c.printed ++ [d.text] } := by
  simp only [Client.receive, take_of_known hfits, cstr_of_noNul hnul]

/-- The network makes nothing up. -/
theorem Invariant.network {t : State} (h : Invariant s) (hflight : ∀ d ∈ t.flight, d ∈ s.flight)
    (hclients : t.clients = s.clients) : Invariant t := by
  refine ⟨fun d hd => ?_, ?_, ?_⟩
  · have hknown := h.known d (hflight d hd)
    exact ⟨by rw [hclients]; exact hknown.sent, hknown.fits, hknown.noNul⟩
  · rw [hclients]
    exact h.own
  · rw [hclients]
    exact h.buffer

theorem invariant_turn {t : State} (h : Invariant s) (ht : Turn s e t) : Invariant t := by
  cases ht with
  | sent c line idle fits flight clients =>
    have hsent : ∀ c', ∀ x ∈ (s.clients c').sent, x ∈ (t.clients c').sent := by
      intro c' x hx
      rw [clients]
      by_cases hc : c' = c
      · subst hc
        rw [Function.update_self]
        exact List.mem_append_left _ hx
      · rwa [Function.update_of_ne hc]
    refine ⟨fun d hd => ?_, fun c' x hx => ?_, fun c' => ?_⟩
    · rw [flight, Multiset.mem_cons] at hd
      rcases hd with rfl | hd
      · refine ⟨?_, fits, read_noNul h c line⟩
        rw [clients]
        dsimp only
        rw [Function.update_self]
        exact List.mem_append_right _ (List.mem_singleton_self _)
      · have hknown := h.known d hd
        exact ⟨hsent _ _ hknown.sent, hknown.fits, hknown.noNul⟩
    · apply hsent c'
      apply h.own c'
      rw [clients] at hx
      by_cases hc : c' = c
      · subst hc
        rwa [Function.update_self] at hx
      · rwa [Function.update_of_ne hc] at hx
    · rw [clients]
      by_cases hc : c' = c
      · subst hc
        rw [Function.update_self]
        exact ⟨fits, read_noNul h c' line⟩
      · rw [Function.update_of_ne hc]
        exact h.buffer c'
  | printed d waits flight clients =>
    have hold : ∀ d' ∈ t.flight, d' ∈ s.flight := fun d' hd' => by
      rw [← flight]
      exact Multiset.mem_cons_of_mem hd'
    have hknown := h.known d (by rw [← flight]; exact Multiset.mem_cons_self d _)
    rw [receive_echo hknown.fits hknown.noNul] at clients
    have hsent : ∀ c', (t.clients c').sent = (s.clients c').sent := by
      intro c'
      rw [clients]
      by_cases hc : c' = d.client
      · subst hc
        rw [Function.update_self]
      · rw [Function.update_of_ne hc]
    refine ⟨fun d' hd' => ?_, fun c' x hx => ?_, fun c' => ?_⟩
    · have hknown' := h.known d' (hold d' hd')
      exact ⟨by rw [hsent]; exact hknown'.sent, hknown'.fits, hknown'.noNul⟩
    · rw [hsent]
      rw [clients] at hx
      by_cases hc : c' = d.client
      · subst hc
        rw [Function.update_self] at hx
        rcases List.mem_append.mp hx with hx | hx
        · exact h.own _ x hx
        · rw [List.mem_singleton.mp hx]
          exact hknown.sent
      · rw [Function.update_of_ne hc] at hx
        exact h.own c' x hx
    · rw [clients]
      by_cases hc : c' = d.client
      · subst hc
        rw [Function.update_self]
        exact ⟨hknown.fits, hknown.noNul⟩
      · rw [Function.update_of_ne hc]
        exact h.buffer c'
  | lost e d event flight clients =>
    refine h.network (fun d' hd' => ?_) clients
    rw [← flight]
    exact Multiset.mem_cons_of_mem hd'
  | copied e d event old flight clients =>
    refine h.network (fun d' hd' => ?_) clients
    rw [flight, Multiset.mem_cons] at hd'
    rcases hd' with rfl | hd'
    · exact old
    · exact hd'
  | moved e event flight clients => exact h.network (fun d' hd' => by rwa [flight] at hd') clients

theorem invariant_initial : Invariant initial where
  known d hd := by cases (Multiset.notMem_zero d hd)
  own c x hx := by cases hx
  buffer c := ⟨by simp [initial, bufferSize], List.not_mem_nil⟩

theorem invariant_next (h : Invariant s) (he : Enabled s e) : Invariant (next s e) :=
  invariant_turn h (next_turn h he)

theorem stores_inside (h : Invariant s) (he : Enabled s e) :
    ∀ n ∈ stores s e, n < bufferSize := by
  intro n hn
  cases e with
  | receive d =>
    rw [List.mem_singleton.mp hn, take_of_known]
    · exact (h.known d (mem_flight (Or.inl he.1))).fits
    · exact (h.known d (mem_flight (Or.inl he.1))).fits
  | print d =>
    rw [List.mem_singleton.mp hn, take_of_known]
    · exact (h.known d (mem_flight (Or.inr (Or.inl he.1)))).fits
    · exact (h.known d (mem_flight (Or.inr (Or.inl he.1)))).fits
  | _ => cases hn

/-! ## A network that copies nothing -/

theorem outstanding_cons {t : State} {d : Datagram} (h : t.flight = d ::ₘ s.flight) (c : ℕ) :
    t.outstanding c = s.outstanding c + if d.client = c then 1 else 0 := by
  rw [State.outstanding, h, Multiset.countP_cons]
  rfl

theorem outstanding_ne_zero {c : ℕ} {d : Datagram} (h : d ∈ s.flight) (hc : d.client = c) :
    s.outstanding c ≠ 0 := by
  have hpos : 0 < s.outstanding c := Multiset.countP_pos.mpr ⟨d, h, hc⟩
  exact Nat.ne_of_gt hpos

def lost (c : ℕ) (es : List Event) : ℕ := (machine.observe (losses c) es).length

variable {t : State} {k : ℕ → ℕ} {c : ℕ} {d : Datagram}

theorem Ordered.sent (h : Ordered k s) {line : Option (List Byte)}
    (idle : (s.clients c).waiting = false)
    (flight : t.flight = ⟨c, (s.clients c).read line⟩ ::ₘ s.flight)
    (clients : t.clients = Function.update s.clients c ((s.clients c).send line)) :
    Ordered k t := by
  have hnone := h.ledger c
  rw [idle, Bool.toNat_false] at hnone
  refine ⟨fun c' => ?_, fun c' hw => ?_, fun c' hw => ?_⟩
  · have hledger := h.ledger c'
    rw [outstanding_cons flight, clients]
    by_cases hc : c' = c
    · subst hc
      rw [Function.update_self, if_pos rfl]
      simp only [Client.send, Bool.toNat_true]
      omega
    · rw [Function.update_of_ne hc, if_neg (Ne.symm hc)]
      exact hledger
  · rw [clients] at hw ⊢
    by_cases hc : c' = c
    · subst hc
      rw [Function.update_self] at hw
      cases hw
    · rw [Function.update_of_ne hc] at hw ⊢
      exact h.ready c' hw
  · rw [clients] at hw ⊢
    by_cases hc : c' = c
    · subst hc
      rw [Function.update_self]
      refine ⟨(s.clients c').read line, ?_, fun d hd hdc => ?_⟩
      · rw [Client.send, h.ready c' idle]
      · rw [flight, Multiset.mem_cons] at hd
        rcases hd with rfl | hd
        · rfl
        · exact absurd (by omega) (outstanding_ne_zero hd hdc)
    · rw [Function.update_of_ne hc] at hw ⊢
      obtain ⟨x, hx, hall⟩ := h.awaiting c' hw
      refine ⟨x, hx, fun d hd hdc => ?_⟩
      rw [flight, Multiset.mem_cons] at hd
      rcases hd with rfl | hd
      · exact absurd hdc (Ne.symm hc)
      · exact hall d hd hdc

theorem Ordered.printed (h : Ordered k s) (hi : Invariant s)
    (waits : (s.clients d.client).waiting = true) (flight : d ::ₘ t.flight = s.flight)
    (clients : t.clients =
      Function.update s.clients d.client ((s.clients d.client).receive d.text)) :
    Ordered k t := by
  have hmem : d ∈ s.flight := by
    rw [← flight]
    exact Multiset.mem_cons_self d _
  have hknown := hi.known d hmem
  rw [receive_echo hknown.fits hknown.noNul] at clients
  refine ⟨fun c' => ?_, fun c' hw => ?_, fun c' hw => ?_⟩
  · have hledger := h.ledger c'
    rw [outstanding_cons flight.symm] at hledger
    rw [clients]
    by_cases hc : c' = d.client
    · subst hc
      rw [waits, if_pos rfl, Bool.toNat_true] at hledger
      rw [Function.update_self]
      simp only [Bool.toNat_false]
      omega
    · rw [if_neg (Ne.symm hc)] at hledger
      rw [Function.update_of_ne hc]
      exact hledger
  · rw [clients] at hw ⊢
    by_cases hc : c' = d.client
    · subst hc
      rw [Function.update_self]
      obtain ⟨x, hx, hall⟩ := h.awaiting _ waits
      dsimp only
      rw [hx, hall d hmem rfl]
    · rw [Function.update_of_ne hc] at hw ⊢
      exact h.ready c' hw
  · rw [clients] at hw ⊢
    by_cases hc : c' = d.client
    · subst hc
      rw [Function.update_self] at hw
      cases hw
    · rw [Function.update_of_ne hc] at hw ⊢
      obtain ⟨x, hx, hall⟩ := h.awaiting c' hw
      refine ⟨x, hx, fun d' hd' => hall d' ?_⟩
      rw [← flight]
      exact Multiset.mem_cons_of_mem hd'

/-- Somebody waits for what was lost, and goes on waiting. -/
theorem Ordered.lost (h : Ordered k s) (flight : d ::ₘ t.flight = s.flight)
    (clients : t.clients = s.clients) :
    Ordered (fun c => k c + if d.client = c then 1 else 0) t := by
  refine ⟨fun c => ?_, ?_, fun c hw => ?_⟩
  · have hledger := h.ledger c
    rw [outstanding_cons flight.symm] at hledger
    rw [clients]
    omega
  · rw [clients]
    exact h.ready
  · rw [clients] at hw ⊢
    obtain ⟨x, hx, hall⟩ := h.awaiting c hw
    refine ⟨x, hx, fun d' hd' => hall d' ?_⟩
    rw [← flight]
    exact Multiset.mem_cons_of_mem hd'

theorem Ordered.moved (h : Ordered k s) (flight : t.flight = s.flight)
    (clients : t.clients = s.clients) : Ordered k t := by
  refine ⟨fun c => ?_, ?_, fun c hw => ?_⟩
  · rw [clients, State.outstanding, flight]
    exact h.ledger c
  · rw [clients]
    exact h.ready
  · rw [clients] at hw ⊢
    rw [flight]
    exact h.awaiting c hw

theorem ordered_turn {k' : ℕ → ℕ} (hi : Invariant s) (h : Ordered k s) (ht : Turn s e t)
    (hnocopy : NoCopy s e) (hk : ∀ c, k' c = k c + (losses c s e).length) : Ordered k' t := by
  cases ht with
  | sent c line idle fits flight clients =>
    obtain rfl : k' = k := funext hk
    exact h.sent idle flight clients
  | printed d waits flight clients =>
    obtain rfl : k' = k := funext hk
    exact h.printed hi waits flight clients
  | lost e d event flight clients =>
    have hloss : k' = fun c => k c + if d.client = c then 1 else 0 := by
      funext c
      rw [hk]
      rcases event with rfl | rfl <;> simp only [losses] <;> split_ifs <;> rfl
    rw [hloss]
    exact h.lost flight clients
  | copied e d event old flight clients => rcases event with rfl | rfl <;> exact hnocopy.elim
  | moved e event flight clients =>
    obtain rfl : k' = k := by
      funext c
      rw [hk]
      rcases event with ⟨d, rfl⟩ | rfl <;> rfl
    exact h.moved flight clients

theorem ordered_initial : Ordered (fun _ => 0) initial where
  ledger c := rfl
  ready c _ := rfl
  awaiting c hw := by cases hw

/-! ## Every run -/

/-- Whatever the network does, a client is shown only what it sent itself, and every terminator is
stored inside its buffer. Where the network copies nothing, the echo after a line is that of the
line, and a client that waits has exactly one datagram under way, or has lost one. -/
structure Echoed (es : List Event) (s : State) : Prop where
  own : ∀ c, ∀ x ∈ (s.clients c).printed, x ∈ (s.clients c).sent
  inside : ∀ n ∈ machine.observe stores es, n < bufferSize
  inStep : machine.Along NoCopy es → ∀ c, (s.clients c).printed <+: (s.clients c).sent ∧
    (s.clients c).sent.length = (s.clients c).printed.length + (s.clients c).waiting.toNat
  ledger : machine.Along NoCopy es → ∀ c, s.outstanding c + lost c es = (s.clients c).waiting.toNat

theorem invariant_run {es : List Event} (h : machine.Valid es) : Invariant (machine.run es) :=
  Machine.invariant (I := Invariant) invariant_initial (fun _ _ hs he => invariant_next hs he) h

theorem ordered_run {es : List Event} (h : machine.Valid es) (hc : machine.Along NoCopy es) :
    Ordered (fun c => lost c es) (machine.run es) := by
  induction es using List.reverseRecOn with
  | nil => exact ordered_initial
  | append_singleton es e ih =>
    obtain ⟨hv, he⟩ := (Machine.valid_concat es e).mp h
    obtain ⟨hc, hce⟩ := (Machine.along_concat es e).mp hc
    have hi := invariant_run hv
    rw [Machine.run_concat]
    apply ordered_turn hi (ih hv hc) (next_turn hi he) hce
    intro c
    rw [lost, Machine.observe_concat, List.length_append, lost]

theorem echoed {es : List Event} (h : machine.Valid es) : Echoed es (machine.run es) := by
  refine ⟨(invariant_run h).own, ?_, fun hc c => ?_, fun hc => (ordered_run h hc).ledger⟩
  · refine (Machine.invariant_observed (I := fun s l => Invariant s ∧ ∀ n ∈ l, n < bufferSize)
      ?_ ?_ h).2
    · exact ⟨invariant_initial, nofun⟩
    · rintro s l e ⟨hi, hl⟩ he
      refine ⟨invariant_next hi he, fun n hn => ?_⟩
      rcases List.mem_append.mp hn with hn | hn
      · exact hl n hn
      · exact stores_inside hi he n hn
  · have hordered := ordered_run h hc
    cases hw : ((machine.run es).clients c).waiting with
    | false =>
      rw [hordered.ready c hw]
      exact ⟨List.prefix_refl _, rfl⟩
    | true =>
      obtain ⟨x, hx, -⟩ := hordered.awaiting c hw
      rw [hx]
      exact ⟨List.prefix_append _ _, List.length_append⟩

/-- The first request comes twice, and its second echo is taken for that of the next line. -/
def copiedRun : List Event :=
  [.input 7 (some (ascii "one\n")), .copyRequest ⟨7, ascii "one"⟩,
    .receive ⟨7, ascii "one"⟩, .reply, .print ⟨7, ascii "one"⟩,
    .input 7 (some (ascii "two\n")), .receive ⟨7, ascii "one"⟩, .reply, .print ⟨7, ascii "one"⟩]

/-- Nothing is copied; two clients are answered in the other order, and then a request is lost. -/
def lostRun : List Event :=
  [.input 7 (some (ascii "one
")), .input 8 (some (ascii "two
")), .receive ⟨8, ascii "two"⟩,
    .reply, .receive ⟨7, ascii "one"⟩, .reply, .print ⟨7, ascii "one"⟩, .print ⟨8, ascii "two"⟩,
    .input 7 (some (ascii "three
")), .loseRequest ⟨7, ascii "three"⟩]

theorem echoed_copied :
    Echoed copiedRun (machine.run copiedRun) ∧
      ((machine.run copiedRun).clients 7).sent = [ascii "one", ascii "two"] ∧
      ((machine.run copiedRun).clients 7).printed = [ascii "one", ascii "one"] ∧
      machine.Along NoCopy lostRun ∧ Echoed lostRun (machine.run lostRun) ∧
      ((machine.run lostRun).clients 7).printed = [ascii "one"] ∧
      ((machine.run lostRun).clients 7).waiting = true ∧ lost 7 lostRun = 1 :=
  ⟨echoed (by decide +kernel), by decide +kernel, by decide +kernel, by decide +kernel,
    echoed (by decide +kernel), by decide +kernel, by decide +kernel, by decide +kernel⟩

end UdpEcho
