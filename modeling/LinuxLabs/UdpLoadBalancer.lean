import LinuxLabs.Execution
import LinuxLabs.CString
import Mathlib.Data.List.Perm.Basic
import Mathlib.Data.List.Nodup
import Mathlib.Logic.Function.Basic

/-! # The UDP load balancer (lab 09)
Clients, balancer and backends exchange datagrams; the balancer's one socket holds what
was sent to it and not yet taken, and hands it out in any order. `Message` is history
only: the balancer and the backends branch on payloads and never on it. -/
namespace UdpLoadBalancer

open Execution CString

abbrev maxBackends : ℕ := 3
instance : NeZero maxBackends := ⟨by decide⟩
def bufSize : ℕ := 1024

abbrev ClientAddr := ℕ
abbrev Backend := Fin maxBackends

inductive Addr where
  | client (c : ClientAddr)
  | backend (i : Backend)
  deriving DecidableEq

def Addr.isBackend : Addr → Bool
  | .client _ => false
  | .backend _ => true

/-- Which request a datagram is, or which datagram it answers. -/
inductive Message where
  | request (c : ClientAddr) (serial : ℕ)
  | reply (i : Backend) (answered : Message)
  deriving DecidableEq

def Message.isRequest : Message → Bool
  | .request _ _ => true
  | .reply _ _ => false

structure Datagram where
  source : Addr
  payload : List Byte
  message : Message
  deriving DecidableEq

/-- Which of its two `recvfrom` calls the balancer is blocked in, with `client_addr`. -/
inductive Phase where
  | awaitClient
  | awaitBackend (clientAddr : Addr)
  deriving DecidableEq

def Phase.waiting : Phase → Bool
  | .awaitClient => false
  | .awaitBackend _ => true

/-- What became of a datagram the balancer took. -/
inductive Action where
  | forward (d : Datagram) (i : Backend)
  | deliver (d : Datagram) (dest : Addr)
  | drop (d : Datagram)
  deriving DecidableEq

def Action.taken : Action → Datagram
  | .forward d _ => d
  | .deliver d _ => d
  | .drop d => d

def Action.forwards (m : Message) : Action → Bool
  | .forward d _ => d.message = m
  | .deliver _ _ => false
  | .drop _ => false

structure State where
  phase : Phase
  currentBackend : Backend
  socket : List Datagram
  inbox : Backend → List (List Byte × Message)
  serial : ℕ
  actions : List Action

def initial : State := ⟨.awaitClient, 0, [], fun _ => [], 0, []⟩

/-- `recvfrom` with room for `bufSize - 1` bytes. -/
def received (payload : List Byte) : List Byte := payload.take (bufSize - 1)

/-- The response of the backend on port `7000 + i`. -/
def backendReply (i : Backend) (payload : List Byte) : List Byte :=
  snprintf bufSize (ascii "[BACKEND:" ++ decimal (7000 + i.val) ++ ascii "] " ++
    cstr (received payload))

def push (inbox : Backend → List (List Byte × Message)) (i : Backend)
    (p : List Byte × Message) : Backend → List (List Byte × Message) :=
  Function.update inbox i (inbox i ++ [p])

/-- `sendto` to an address; what a client does with it is not the balancer's concern. -/
def sendTo (inbox : Backend → List (List Byte × Message)) (p : List Byte × Message) :
    Addr → Backend → List (List Byte × Message)
  | .client _ => inbox
  | .backend i => push inbox i p

/-- The balancer after `recvfrom` handed it `d`. -/
def take (s : State) (d : Datagram) : State :=
  let buffer := received d.payload
  match s.phase with
  | .awaitClient =>
    { s with
      phase := .awaitBackend d.source
      inbox := push s.inbox s.currentBackend (buffer, d.message)
      actions := s.actions ++ [.forward d s.currentBackend] }
  | .awaitBackend clientAddr =>
    if buffer ≠ [] then
      { s with
        phase := .awaitClient
        currentBackend := s.currentBackend + 1
        inbox := sendTo s.inbox (buffer, d.message) clientAddr
        actions := s.actions ++ [.deliver d clientAddr] }
    else
      { s with
        phase := .awaitClient
        currentBackend := s.currentBackend + 1
        actions := s.actions ++ [.drop d] }

inductive Event where
  | send (c : ClientAddr) (payload : List Byte)
  | answer (i : Backend) (k : ℕ)
  | receive (k : ℕ)
  | receiveError
  deriving DecidableEq

def Enabled (s : State) : Event → Prop
  | .send _ _ => True
  | .answer i k => k < (s.inbox i).length
  | .receive k => k < s.socket.length
  | .receiveError => True

instance (s : State) (e : Event) : Decidable (Enabled s e) := by
  cases e <;> simp only [Enabled] <;> infer_instance

def next (s : State) : Event → State
  | .send c payload =>
    { s with
      socket := s.socket ++ [⟨.client c, payload, .request c s.serial⟩]
      serial := s.serial + 1 }
  | .answer i k =>
    match (s.inbox i)[k]? with
    | none => s
    | some (payload, m) =>
      { s with
        socket := s.socket ++ [⟨.backend i, backendReply i payload, .reply i m⟩]
        inbox := Function.update s.inbox i ((s.inbox i).eraseIdx k) }
  | .receive k =>
    match s.socket[k]? with
    | none => s
    | some d => take { s with socket := s.socket.eraseIdx k } d
  | .receiveError =>
    match s.phase with
    | .awaitClient => s
    | .awaitBackend _ => { s with phase := .awaitClient, currentBackend := s.currentBackend + 1 }

def machine : Machine State Event := ⟨initial, Enabled, next⟩

instance (s : State) (e : Event) : Decidable (machine.Enabled s e) :=
  inferInstanceAs (Decidable (Enabled s e))

/-- What goes to a client is a backend's reply to its own request, every request taken is
forwarded once, and only requests are forwarded. -/
structure Matched (s : State) : Prop where
  delivered : ∀ d a, .deliver d a ∈ s.actions →
    ∃ c n i, a = .client c ∧ d.message = .reply i (.request c n)
  requests : ∀ c n, (∃ a ∈ s.actions, a.taken.message = .request c n) →
    (s.actions.filter (Action.forwards (.request c n))).length = 1
  forwarded : ∀ d i, .forward d i ∈ s.actions → d.message.isRequest

/-- The first `recvfrom` takes a client's datagram, the second a backend's. -/
def RightSender (s : State) : Event → Prop
  | .receive k => ∀ d ∈ s.socket[k]?, d.source.isBackend = s.phase.waiting
  | _ => True

/-- The second `recvfrom` does not give up on its reply. -/
def ReplyAwaited (s : State) : Event → Prop
  | .receiveError => s.phase.waiting = false
  | _ => True

instance (s : State) (e : Event) : Decidable (RightSender s e) := by
  cases e <;> simp only [RightSender] <;> infer_instance

instance (s : State) (e : Event) : Decidable (ReplyAwaited s e) := by
  cases e <;> simp only [ReplyAwaited] <;> infer_instance

/-! ## Every run: requests are taken at most once -/

theorem backendReply_received (i : Backend) (payload : List Byte) :
    received (backendReply i payload) ≠ [] := by
  have h : ascii "[BACKEND:" = 91 :: (ascii "[BACKEND:").tail := by decide
  rw [backendReply, h]
  simp [received, snprintf, bufSize]

/-- The source of a datagram tells a request from a reply. -/
def Genuine (d : Datagram) : Prop :=
  match d.source with
  | .client c => ∃ n, d.message = .request c n
  | .backend i => (∃ m, d.message = .reply i m) ∧ received d.payload ≠ []

/-- Every message that has reached the balancer, taken or not. -/
def arrived (s : State) : List Message :=
  s.socket.map Datagram.message ++ s.actions.map fun a => a.taken.message

structure Traced (s : State) : Prop where
  socket : ∀ d ∈ s.socket, Genuine d
  taken : ∀ a ∈ s.actions, Genuine a.taken
  unique : ((arrived s).filter Message.isRequest).Nodup
  serials : ∀ c n, .request c n ∈ arrived s → n < s.serial
  dropped : ∀ d, .drop d ∈ s.actions → received d.payload = []

theorem take_socket (s : State) (d : Datagram) : (take s d).socket = s.socket := by
  unfold take
  split
  · rfl
  · dsimp only
    split <;> rfl

theorem take_serial (s : State) (d : Datagram) : (take s d).serial = s.serial := by
  unfold take
  split
  · rfl
  · dsimp only
    split <;> rfl

theorem take_actions (s : State) (d : Datagram) :
    ∃ a, (take s d).actions = s.actions ++ [a] ∧ a.taken = d ∧
      (a = .drop d → received d.payload = []) := by
  unfold take
  split
  · exact ⟨_, rfl, rfl, by simp⟩
  · dsimp only
    split
    · exact ⟨_, rfl, rfl, by simp⟩
    · next hb => exact ⟨_, rfl, rfl, fun _ => not_not.mp hb⟩

theorem arrived_take {s : State} {k : ℕ} {d : Datagram} (h : s.socket[k]? = some d) :
    (arrived (take { s with socket := s.socket.eraseIdx k } d)).Perm (arrived s) := by
  obtain ⟨hk, rfl⟩ := List.getElem?_eq_some_iff.mp h
  obtain ⟨a, ha, hd, _⟩ := take_actions { s with socket := s.socket.eraseIdx k } s.socket[k]
  rw [arrived, arrived, take_socket, ha, List.map_append, List.map_singleton, hd,
    ← List.append_assoc]
  refine (List.perm_append_singleton _ _).trans ?_
  rw [← List.cons_append]
  refine List.Perm.append_right _ ?_
  rw [← List.map_cons]
  exact (List.getElem_cons_eraseIdx_perm hk).map _

theorem initial_traced : Traced initial :=
  ⟨by simp [initial], by simp [initial], by simp [initial, arrived], by simp [initial, arrived],
    by simp [initial]⟩

theorem Traced.send {s : State} (h : Traced s) (c : ClientAddr) (payload : List CString.Byte) :
    Traced (next s (.send c payload)) := by
  have hadd : (arrived (next s (.send c payload))).Perm (.request c s.serial :: arrived s) := by
    simp only [arrived, next, List.map_append, List.map_singleton, List.append_assoc,
      List.singleton_append]
    exact List.perm_middle
  refine ⟨?_, h.taken, ?_, ?_, h.dropped⟩
  · intro d hd
    rcases List.mem_append.mp hd with hd | hd
    · exact h.socket d hd
    · obtain rfl := List.mem_singleton.mp hd
      exact ⟨s.serial, rfl⟩
  · refine ((hadd.filter _).nodup_iff).mpr ?_
    rw [List.filter_cons_of_pos rfl, List.nodup_cons]
    refine ⟨fun hm => ?_, h.unique⟩
    exact lt_irrefl _ (h.serials c s.serial (List.mem_filter.mp hm).1)
  · intro c' n hm
    rcases List.mem_cons.mp (hadd.mem_iff.mp hm) with heq | hm
    · cases heq
      exact Nat.lt_succ_self _
    · exact (h.serials c' n hm).trans (Nat.lt_succ_self _)

theorem Traced.answer {s : State} (h : Traced s) (i : Backend) (k : ℕ) :
    Traced (next s (.answer i k)) := by
  simp only [next]
  split
  · exact h
  · next payload m _ =>
    refine ⟨?_, h.taken, ?_, ?_, h.dropped⟩
    · intro d hd
      rcases List.mem_append.mp hd with hd | hd
      · exact h.socket d hd
      · obtain rfl := List.mem_singleton.mp hd
        exact ⟨⟨m, rfl⟩, backendReply_received i payload⟩
    · simpa [arrived, List.filter_append, Message.isRequest] using h.unique
    · intro c n hm
      refine h.serials c n ?_
      simpa [arrived] using hm

theorem Traced.take {s : State} (h : Traced s) {k : ℕ} {d : Datagram}
    (hd : s.socket[k]? = some d) :
    Traced (take { s with socket := s.socket.eraseIdx k } d) := by
  obtain ⟨a, ha, hat, hdrop⟩ := take_actions { s with socket := s.socket.eraseIdx k } d
  have hp := arrived_take hd
  refine ⟨?_, ?_, ?_, ?_, ?_⟩
  · rw [take_socket]
    exact fun x hx => h.socket x (List.mem_of_mem_eraseIdx hx)
  · rw [ha]
    intro x hx
    rcases List.mem_append.mp hx with hx | hx
    · exact h.taken x hx
    · obtain rfl := List.mem_singleton.mp hx
      rw [hat]
      exact h.socket d (List.mem_of_getElem? hd)
  · exact ((hp.filter _).nodup_iff).mpr h.unique
  · rw [take_serial]
    exact fun c n hm => h.serials c n (hp.mem_iff.mp hm)
  · rw [ha]
    intro x hx
    rcases List.mem_append.mp hx with hx | hx
    · exact h.dropped x hx
    · obtain rfl := List.mem_singleton.mp hx
      obtain rfl : x = d := hat
      exact hdrop rfl

theorem next_traced {s : State} (h : Traced s) (e : Event) : Traced (next s e) := by
  cases e with
  | send c payload => exact h.send c payload
  | answer i k => exact h.answer i k
  | receive k =>
    simp only [next]
    split
    · exact h
    · next d hd => exact h.take hd
  | receiveError =>
    simp only [next]
    split
    · exact h
    · exact ⟨h.socket, h.taken, h.unique, h.serials, h.dropped⟩

theorem run_traced {es : List Event} (h : machine.Valid es) : Traced (machine.run es) :=
  Machine.invariant (I := Traced) initial_traced (fun _ e hs _ => next_traced hs e) h

/-! ## One action at a time -/

def GoodAction : Action → Prop
  | .forward d _ => d.message.isRequest
  | .deliver d a => ∃ c n i, a = .client c ∧ d.message = .reply i (.request c n)
  | .drop _ => False

/-- Two entries of the log never took the same request. -/
theorem Traced.taken_once {s : State} (h : Traced s) {m : Message} (hm : m.isRequest) :
    (s.actions.filter fun a => a.taken.message = m).length ≤ 1 := by
  have hn : ((s.actions.map fun a => a.taken.message).filter Message.isRequest).Nodup := by
    have hu := h.unique
    rw [arrived, List.filter_append] at hu
    exact hu.of_append_right
  have hc := List.nodup_iff_count_le_one.mp hn m
  rw [List.count_filter hm, List.count, List.countP_map, List.countP_eq_length_filter] at hc
  exact hc

theorem Traced.taken_eq {s : State} (h : Traced s) {m : Message} (hm : m.isRequest) {a b : Action}
    (ha : a ∈ s.actions) (hb : b ∈ s.actions) (ham : a.taken.message = m)
    (hbm : b.taken.message = m) : a = b := by
  have hone := h.taken_once hm
  have ha' : a ∈ s.actions.filter fun x => x.taken.message = m :=
    List.mem_filter.mpr ⟨ha, decide_eq_true ham⟩
  have hb' : b ∈ s.actions.filter fun x => x.taken.message = m :=
    List.mem_filter.mpr ⟨hb, decide_eq_true hbm⟩
  obtain ⟨x, hx⟩ := List.length_eq_one_iff.mp
    (le_antisymm hone (List.length_pos_of_mem ha'))
  rw [hx, List.mem_singleton] at ha' hb'
  rw [ha', hb']

theorem forwards_taken {a : Action} {m : Message} (h : a.forwards m) : a.taken.message = m := by
  cases a with
  | forward d i => exact of_decide_eq_true h
  | deliver | drop => cases h

/-- A run is matched when each of its actions is. -/
theorem matched_iff {s : State} (h : Traced s) : Matched s ↔ ∀ a ∈ s.actions, GoodAction a := by
  constructor
  · intro hm a ha
    cases a with
    | forward d i => exact hm.forwarded d i ha
    | deliver d a => exact hm.delivered d a ha
    | drop d =>
      -- a dropped request was forwarded by another action, but only one action took it
      have hgen := h.taken _ ha
      unfold Genuine at hgen
      split at hgen
      · next c _ =>
        obtain ⟨n, hmsg⟩ := hgen
        have hone := hm.requests c n ⟨_, ha, hmsg⟩
        obtain ⟨b, hb⟩ := List.exists_mem_of_length_pos (by rw [hone]; exact Nat.one_pos)
        obtain ⟨hbs, hbf⟩ := List.mem_filter.mp hb
        have hsame : b = .drop d := h.taken_eq rfl hbs ha (forwards_taken hbf) hmsg
        rw [hsame] at hbf
        cases hbf
      · exact absurd (h.dropped d ha) hgen.2
  · intro hg
    refine ⟨fun d a ha => hg _ ha, ?_, fun d i ha => hg _ ha⟩
    rintro c n ⟨a, ha, hm⟩
    have hf : a.forwards (.request c n) := by
      have hga := hg a ha
      cases a with
      | forward d i => exact decide_eq_true hm
      | deliver d a =>
        obtain ⟨c', n', i, _, hd⟩ := hga
        exact absurd (hd.symm.trans hm) (by simp)
      | drop => exact hga.elim
    have hpos : 0 < (s.actions.filter (Action.forwards (.request c n))).length :=
      List.length_pos_of_mem (List.mem_filter.mpr ⟨ha, hf⟩)
    have hle : (s.actions.filter (Action.forwards (.request c n))).length ≤
        (s.actions.filter fun a => a.taken.message = .request c n).length :=
      (List.monotone_filter_right _ fun b hb => by simpa using forwards_taken hb).length_le
    have hone := h.taken_once (m := .request c n) rfl
    omega

/-! ## Runs in which each `recvfrom` hears the side it waits for -/

/-- Nothing of the backends is on its way to the balancer. -/
def Quiet (s : State) : Prop := ∀ d ∈ s.socket, d.source.isBackend = false

/-- The one request in progress: with a backend, or answered and on its way back. -/
inductive InProgress (s : State) (m : Message) : Prop where
  | asked (i : Backend) (payload : List Byte) (inbox : s.inbox i = [(payload, m)])
      (others : ∀ j, j ≠ i → s.inbox j = []) (quiet : Quiet s)
  | answered (before after : List Datagram) (i : Backend) (payload : List Byte)
      (inboxes : ∀ j, s.inbox j = [])
      (socket : s.socket = before ++ ⟨.backend i, payload, .reply i m⟩ :: after)
      (quiet : ∀ d ∈ before ++ after, d.source.isBackend = false)

def Orderly (s : State) : Prop :=
  match s.phase with
  | .awaitClient => (∀ i, s.inbox i = []) ∧ Quiet s
  | .awaitBackend a => ∃ c n, a = .client c ∧ InProgress s (.request c n)

theorem quiet_append {s : State} (h : Quiet s) {d : Datagram} (hd : d.source.isBackend = false) :
    ∀ x ∈ s.socket ++ [d], x.source.isBackend = false := by
  intro x hx
  rcases List.mem_append.mp hx with hx | hx
  · exact h x hx
  · rw [List.mem_singleton.mp hx]
    exact hd

theorem send_orderly {s : State} (h : Orderly s) (c : ClientAddr) (payload : List Byte) :
    Orderly (next s (.send c payload)) := by
  unfold Orderly at *
  simp only [next]
  cases hp : s.phase with
  | awaitClient =>
    rw [hp] at h
    exact ⟨h.1, quiet_append h.2 rfl⟩
  | awaitBackend a =>
    rw [hp] at h
    obtain ⟨c', n, ha, hprog⟩ := h
    refine ⟨c', n, ha, ?_⟩
    cases hprog with
    | asked i p hi ho hq => exact .asked i p hi ho (quiet_append hq rfl)
    | answered before after i p hi hs hq =>
      refine .answered before (after ++ [⟨.client c, payload, .request c s.serial⟩]) i p hi
        (by simp [hs]) fun d hd => ?_
      rw [← List.append_assoc] at hd
      rcases List.mem_append.mp hd with hd | hd
      · exact hq d hd
      · rw [List.mem_singleton.mp hd]
        rfl

theorem answer_orderly {s : State} (h : Orderly s) (i : Backend) (k : ℕ) :
    Orderly (next s (.answer i k)) := by
  unfold Orderly at *
  simp only [next]
  cases hk : (s.inbox i)[k]? with
  | none => exact h
  | some p =>
    obtain ⟨payload, m⟩ := p
    have hmem := List.mem_of_getElem? hk
    dsimp only
    cases hp : s.phase with
    | awaitClient =>
      rw [hp] at h
      rw [h.1 i] at hmem
      cases hmem
    | awaitBackend a =>
      rw [hp] at h
      obtain ⟨c, n, ha, hprog⟩ := h
      refine ⟨c, n, ha, ?_⟩
      cases hprog with
      | asked j p hj ho hq =>
        obtain rfl : i = j := by
          by_contra hij
          rw [ho i hij] at hmem
          cases hmem
        rw [hj] at hk
        obtain ⟨rfl, hkm⟩ : k = 0 ∧ (p, Message.request c n) = (payload, m) := by
          cases k with
          | zero => exact ⟨rfl, by simpa using hk⟩
          | succ k => simp at hk
        cases hkm
        refine .answered s.socket [] i (backendReply i payload) (fun j => ?_) rfl ?_
        · by_cases hji : j = i
          · subst hji
            simp [hj]
          · simp [Function.update_of_ne hji, ho j hji]
        · rw [List.append_nil]
          exact hq
      | answered before after j p hi hs hq =>
        rw [hi i] at hmem
        cases hmem

/-- The second `recvfrom` heard a backend: it can only be the one reply in flight. -/
theorem take_reply {s : State} (ht : Traced s) {a : Addr} (hp : s.phase = .awaitBackend a)
    (h : Orderly s) {k : ℕ} {d : Datagram} (hk : s.socket[k]? = some d)
    (hd : d.source.isBackend) :
    (take { s with socket := s.socket.eraseIdx k } d).actions = s.actions ++ [.deliver d a] ∧
      GoodAction (.deliver d a) ∧
      Orderly (take { s with socket := s.socket.eraseIdx k } d) := by
  have hmem := List.mem_of_getElem? hk
  unfold Orderly at h
  rw [hp] at h
  obtain ⟨c, n, rfl, hprog⟩ := h
  cases hprog with
  | asked i p hi ho hq =>
    rw [hq d hmem] at hd
    cases hd
  | answered before after i p hi hs hq =>
    have hrest : d.message = .reply i (.request c n) ∧
        ∀ x ∈ s.socket.eraseIdx k, x.source.isBackend = false := by
      have hlen : k < s.socket.length := (List.getElem?_eq_some_iff.mp hk).1
      rw [hs] at hk ⊢
      rcases lt_trichotomy k before.length with hlt | heq | hgt
      · rw [List.getElem?_append_left hlt] at hk
        have := hq d (List.mem_append_left _ (List.mem_of_getElem? hk))
        rw [this] at hd
        cases hd
      · subst heq
        simp only [List.getElem?_append_right (le_refl _), Nat.sub_self, List.getElem?_cons_zero,
          Option.some.injEq] at hk
        subst hk
        refine ⟨rfl, fun x hx => hq x ?_⟩
        simpa [List.eraseIdx_append_of_length_le] using hx
      · rw [List.getElem?_append_right hgt.le] at hk
        obtain ⟨j, hj⟩ : ∃ j, k - before.length = j + 1 := ⟨k - before.length - 1, by omega⟩
        rw [hj, List.getElem?_cons_succ] at hk
        have := hq d (List.mem_append_right _ (List.mem_of_getElem? hk))
        rw [this] at hd
        cases hd
    have hbuf : received d.payload ≠ [] := by
      have hgen := ht.socket d hmem
      unfold Genuine at hgen
      split at hgen
      · next hsrc => rw [hsrc] at hd; cases hd
      · exact hgen.2
    refine ⟨?_, ⟨c, n, i, rfl, hrest.1⟩, ?_⟩
    · simp [take, hp, hbuf]
    · simp only [take, hp, if_pos hbuf, Orderly, sendTo]
      exact ⟨hi, hrest.2⟩

/-- The first `recvfrom` heard a client: its request goes to the next backend. -/
theorem take_request {s : State} (ht : Traced s) (hp : s.phase = .awaitClient) (h : Orderly s)
    {k : ℕ} {d : Datagram} (hk : s.socket[k]? = some d) (hd : d.source.isBackend = false) :
    GoodAction (.forward d s.currentBackend) ∧
      Orderly (take { s with socket := s.socket.eraseIdx k } d) := by
  unfold Orderly at h
  rw [hp] at h
  obtain ⟨c, n, hsrc, hmsg⟩ : ∃ c n, d.source = .client c ∧ d.message = .request c n := by
    have hgen := ht.socket d (List.mem_of_getElem? hk)
    unfold Genuine at hgen
    split at hgen
    · next c hsrc =>
      obtain ⟨n, hmsg⟩ := hgen
      exact ⟨c, n, hsrc, hmsg⟩
    · next hsrc => rw [hsrc] at hd; cases hd
  refine ⟨by rw [GoodAction, hmsg]; rfl, ?_⟩
  simp only [take, hp, Orderly]
  refine ⟨c, n, hsrc, .asked s.currentBackend (received d.payload) ?_ (fun j hj => ?_) ?_⟩
  · simp [push, h.1 s.currentBackend, hmsg]
  · simp [push, Function.update_of_ne hj, h.1 j]
  · exact fun x hx => h.2 x (List.mem_of_mem_eraseIdx hx)

structure InStep (s : State) : Prop where
  traced : Traced s
  orderly : Orderly s
  good : ∀ a ∈ s.actions, GoodAction a

theorem phase_cases (s : State) :
    s.phase = .awaitClient ∨ ∃ a, s.phase = .awaitBackend a := by
  cases s.phase <;> simp

theorem next_inStep {s : State} (h : InStep s) {e : Event} (hr : RightSender s e)
    (hw : ReplyAwaited s e) : InStep (next s e) := by
  have ht := next_traced h.traced e
  cases e with
  | send c payload => exact ⟨ht, send_orderly h.orderly c payload, h.good⟩
  | answer i k =>
    refine ⟨ht, answer_orderly h.orderly i k, ?_⟩
    simp only [next]
    split <;> exact h.good
  | receive k =>
    revert ht
    simp only [next]
    split
    · exact fun _ => h
    · next d hd =>
      intro ht
      have hs := hr d hd
      have ho := h.orderly
      rcases phase_cases s with hp | ⟨a, hp⟩
      · rw [hp] at hs
        obtain ⟨hgood, hord⟩ := take_request h.traced hp ho hd hs
        refine ⟨ht, hord, ?_⟩
        intro a ha
        simp only [take, hp] at ha
        rcases List.mem_append.mp ha with ha | ha
        · exact h.good a ha
        · rw [List.mem_singleton.mp ha]
          exact hgood
      · rw [hp] at hs
        obtain ⟨hact, hgood, hord⟩ := take_reply h.traced hp ho hd hs
        refine ⟨ht, hord, ?_⟩
        rw [hact]
        intro b hb
        rcases List.mem_append.mp hb with hb | hb
        · exact h.good b hb
        · rw [List.mem_singleton.mp hb]
          exact hgood
  | receiveError =>
    simp only [ReplyAwaited] at hw
    have hstay : next s .receiveError = s := by
      simp only [next]
      split
      · rfl
      · next hp => rw [hp] at hw; cases hw
    rw [hstay]
    exact h

theorem initial_inStep : InStep initial :=
  ⟨initial_traced, ⟨fun _ => rfl, by simp [Quiet, initial]⟩, by simp [initial]⟩

/-! ## A datagram from the other side -/

theorem next_actions (s : State) (e : Event) : s.actions <+: (next s e).actions := by
  cases e with
  | send => exact List.prefix_rfl
  | answer i k =>
    simp only [next]
    split <;> exact List.prefix_rfl
  | receive k =>
    simp only [next]
    split
    · exact List.prefix_rfl
    · next d _ =>
      obtain ⟨a, ha, _⟩ := take_actions { s with socket := s.socket.eraseIdx k } d
      rw [ha]
      exact List.prefix_append _ _
  | receiveError =>
    simp only [next]
    split <;> exact List.prefix_rfl

theorem wrong_sender_bad {s : State} (h : Traced s) {e : Event} (hr : ¬ RightSender s e) :
    ∃ a ∈ (next s e).actions, ¬ GoodAction a := by
  cases e with
  | send | answer | receiveError => exact absurd trivial hr
  | receive k =>
    obtain ⟨d, hd, hs⟩ : ∃ d, s.socket[k]? = some d ∧ d.source.isBackend ≠ s.phase.waiting := by
      simpa [RightSender] using hr
    have hgen := h.socket d (List.mem_of_getElem? hd)
    unfold Genuine at hgen
    simp only [next, hd]
    cases hp : s.phase with
    | awaitClient =>
      rw [hp] at hs
      refine ⟨.forward d s.currentBackend, by simp [take], ?_⟩
      split at hgen
      · next hsrc => exact absurd (by rw [hsrc]; rfl) hs
      · obtain ⟨⟨m, hm⟩, _⟩ := hgen
        simp [GoodAction, hm, Message.isRequest]
    | awaitBackend a =>
      rw [hp] at hs
      split at hgen
      · obtain ⟨n, hm⟩ := hgen
        by_cases hb : received d.payload = []
        · exact ⟨.drop d, by simp [take, hb], id⟩
        · refine ⟨.deliver d a, by simp [take, hb], ?_⟩
          rintro ⟨c', n', i, _, hd'⟩
          rw [hm] at hd'
          cases hd'
      · next hsrc => exact absurd (by rw [hsrc]; rfl) hs

/-- The log of a run only grows, so one bad action spoils every later state. -/
theorem run_right_sender {es : List Event} (h : machine.Valid es)
    (hg : ∀ a ∈ (machine.run es).actions, GoodAction a) : machine.Along RightSender es := by
  induction es using List.reverseRecOn with
  | nil => trivial
  | append_singleton es e ih =>
    obtain ⟨hv, _⟩ := (Machine.valid_concat es e).mp h
    rw [Machine.run_concat] at hg
    refine (Machine.along_concat es e).mpr ⟨ih hv fun a ha => ?_, ?_⟩
    · exact hg a ((next_actions _ e).subset ha)
    · by_contra hr
      obtain ⟨a, ha, hbad⟩ := wrong_sender_bad (run_traced hv) hr
      exact hbad (hg a ha)

/-- Requests and replies match in every state of a run whose two `recvfrom` calls each hear
the side they wait for, and in no run in which one of them does not. -/
theorem matched_of_right_sender (es : List Event) (h : machine.Valid es) :
    (machine.Along RightSender es → machine.Along ReplyAwaited es → Matched (machine.run es)) ∧
      (Matched (machine.run es) → machine.Along RightSender es) := by
  constructor
  · intro hr hw
    have hs := Machine.invariant_along (I := InStep) initial_inStep
      (fun s e hs _ hc => next_inStep hs hc.1 hc.2) h ((Machine.along_and es).mpr ⟨hr, hw⟩)
    exact (matched_iff hs.traced).mpr hs.good
  · intro hm
    exact run_right_sender h ((matched_iff (run_traced h)).mp hm)

/-- Two clients take turns and each hears its own backend. -/
theorem matched_two_clients :
    let es := [.send 0 (ascii "a"), .receive 0, .answer 0 0, .receive 0,
      .send 1 (ascii "b"), .receive 0, .answer 1 0, .receive 0]
    (machine.Along RightSender es → machine.Along ReplyAwaited es → Matched (machine.run es)) ∧
      (Matched (machine.run es) → machine.Along RightSender es) ∧
      machine.Along RightSender es ∧ machine.Along ReplyAwaited es := by
  refine ⟨(matched_of_right_sender _ (by decide)).1, (matched_of_right_sender _ (by decide)).2,
    by decide, by decide⟩

/-- A second client's request arrives while the first one's reply is awaited: it is sent to
the first client and reaches no backend. -/
theorem second_request_misdelivered :
    ¬ ∀ es : List Event, machine.Valid es → Matched (machine.run es) := by
  intro hall
  have hm := hall [.send 0 (ascii "a"), .send 1 (ascii "b"), .receive 0, .receive 0] (by decide)
  obtain ⟨c, n, i, _, hd⟩ :=
    hm.delivered ⟨.client 1, ascii "b", .request 1 1⟩ (.client 0) (by decide)
  cases hd

end UdpLoadBalancer
