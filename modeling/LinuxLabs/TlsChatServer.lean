import LinuxLabs.Execution
import LinuxLabs.LinkedList
import Mathlib.Data.Finset.Basic
import Mathlib.Logic.Function.Basic

/-! # The TLS chat server (lab 16)
One thread takes the events of an `epoll_wait` batch in turn and walks the list
`connections` both to find the connection of a descriptor and to pass on what it reads.
A step is one call with its result, or the code up to the next call (`advance`); loops over
the list advance node by node. The numbers of the connections and `calls` are history. -/
namespace TlsChatServer

open Execution LinkedList

abbrev Fd := ℕ
abbrev Addr := ℕ
abbrev ConnId := ℕ

def maxEvents : ℕ := 256
def bufSize : ℕ := 4096

inductive ConnState where
  | handshake
  | established
  | closed
  deriving DecidableEq

/-- `conn_t`; the TLS session is told apart by `id`. -/
structure Conn where
  fd : Fd
  state : ConnState
  next : Option Addr
  id : ConnId
  deriving DecidableEq

/-- An entry of `events[]`, with the connection it was reported for. -/
inductive Ready where
  | listener
  | conn (fd : Fd) (id : ConnId)
  deriving DecidableEq

inductive AcceptResult where
  | done
  | wantRead
  | wantWrite
  | fatal
  deriving DecidableEq

inductive ReadResult where
  | data (bytes : List UInt8)
  | wantRead
  | wantWrite
  | zeroReturn
  | fatal
  deriving DecidableEq

inductive WriteResult where
  | wrote (n : ℕ)
  | wantRead
  | wantWrite
  | fatal
  deriving DecidableEq

/-- A TLS call; a write passes what is left of `buf` after `written` bytes. -/
inductive Call where
  | accept (id : ConnId) (r : AcceptResult)
  | read (id : ConnId) (r : ReadResult)
  | write (id : ConnId) (buf : List UInt8) (written : ℕ) (r : WriteResult)
  deriving DecidableEq

/-- The variables `fd`, `prev` and `c` of the handler of one event. -/
structure Handler where
  fd : Fd
  id : ConnId
  prev : Option Addr
  c : Addr
  deriving DecidableEq

/-- Where the thread is. `dispatch` is the head of the loop over the batch, `broadcasting` and
`writing` are in `broadcast_message`, `cleanup` is the test after the handler. -/
inductive Pos where
  | dispatch
  | accepting
  | finding (fd : Fd) (id : ConnId) (prev c : Option Addr)
  | handshaking (h : Handler)
  | reading (h : Handler)
  | broadcasting (h : Handler) (buf : List UInt8) (cur : Option Addr)
  | writing (h : Handler) (buf : List UInt8) (cur : Addr) (written : ℕ)
  | cleanup (h : Handler)
  deriving DecidableEq

def Pos.handler : Pos → Option Handler
  | .handshaking h | .reading h | .broadcasting h _ _ | .writing h _ _ _ | .cleanup h => some h
  | .dispatch | .accepting | .finding .. => none

/-- `reserved` holds the other open descriptors, `registered` the epoll set without the
listener. -/
structure State where
  listenFd : Fd
  reserved : Finset Fd
  nodes : Addr → Conn
  live : Finset Addr
  connections : Option Addr
  registered : Fd → Option ConnId
  batch : List Ready
  pos : Pos
  accepted : ℕ
  calls : List Call

def initial (listenFd : Fd) (reserved : Finset Fd) : State where
  listenFd := listenFd
  reserved := insert listenFd reserved
  nodes := fun _ => ⟨0, .handshake, none, 0⟩
  live := ∅
  connections := none
  registered := fun _ => none
  batch := []
  pos := .dispatch
  accepted := 0
  calls := []

def State.next (s : State) (a : Addr) : Option Addr := (s.nodes a).next

def State.setState (s : State) (a : Addr) (st : ConnState) : State :=
  { s with nodes := Function.update s.nodes a { s.nodes a with state := st } }

def State.record (s : State) (c : Call) : State := { s with calls := s.calls ++ [c] }

def State.goto (s : State) (pos : Pos) : State := { s with pos := pos }

/-- `add_connection` with the node that was filled in before, and its registration. -/
def addConnection (s : State) (fd : Fd) (a : Addr) : State :=
  { s with
    nodes := Function.update s.nodes a ⟨fd, .handshake, s.connections, s.accepted⟩
    live := insert a s.live
    connections := some a
    registered := Function.update s.registered fd (some s.accepted)
    accepted := s.accepted + 1 }

/-- `remove_connection`. -/
def removeConnection (s : State) (prev : Option Addr) (c : Addr) : State :=
  { s with
    nodes :=
      match prev with
      | some p => Function.update s.nodes p { s.nodes p with next := s.next c }
      | none => s.nodes
    connections :=
      match prev with
      | some _ => s.connections
      | none => s.next c
    registered := Function.update s.registered (s.nodes c).fd none
    live := s.live.erase c }

/-- The test of the write loop for the connection at `cur`. -/
def offer (s : State) (h : Handler) (buf : List UInt8) (cur : Addr) (written : ℕ) : Pos :=
  if written < buf.length then .writing h buf cur written else .broadcasting h buf (s.next cur)

inductive Event where
  | poll (ready : List Ready)
  | advance
  | accept (fd : Fd) (a : Addr)
  | acceptFailed
  | sslAccept (r : AcceptResult)
  | sslRead (r : ReadResult)
  | sslWrite (r : WriteResult)
  deriving DecidableEq

def Ready.fd (listenFd : Fd) : Ready → Fd
  | .listener => listenFd
  | .conn fd _ => fd

def Ready.Reported (s : State) : Ready → Prop
  | .listener => True
  | .conn fd id => s.registered fd = some id

def ReadResult.Possible : ReadResult → Prop
  | .data bytes => bytes ≠ [] ∧ bytes.length ≤ bufSize
  | _ => True

def WriteResult.Possible (left : ℕ) : WriteResult → Prop
  | .wrote n => 0 < n ∧ n ≤ left
  | _ => True

def Enabled (s : State) : Event → Prop
  | .poll ready => s.pos = .dispatch ∧ s.batch = [] ∧ ready.length ≤ maxEvents ∧
    (ready.map (Ready.fd s.listenFd)).Nodup ∧ ∀ r ∈ ready, r.Reported s
  | .advance =>
    match s.pos with
    | .dispatch => s.batch ≠ []
    | .finding .. | .broadcasting .. | .cleanup _ => True
    | _ => False
  | .accept fd a => s.pos = .accepting ∧ fd ∉ s.reserved ∧ s.registered fd = none ∧ a ∉ s.live
  | .acceptFailed => s.pos = .accepting
  | .sslAccept _ =>
    match s.pos with
    | .handshaking _ => True
    | _ => False
  | .sslRead r =>
    match s.pos with
    | .reading _ => r.Possible
    | _ => False
  | .sslWrite r =>
    match s.pos with
    | .writing _ buf _ written => r.Possible (buf.length - written)
    | _ => False

/-- The code between two calls. -/
def advance (s : State) : State :=
  match s.pos with
  | .dispatch =>
    match s.batch with
    | [] => s
    | .listener :: rest => { s with batch := rest, pos := .accepting }
    | .conn fd id :: rest => { s with batch := rest, pos := .finding fd id none s.connections }
  | .finding fd _ _ none =>
    -- unknown fd
    { s with registered := Function.update s.registered fd none, pos := .dispatch }
  | .finding fd id prev (some c) =>
    if (s.nodes c).fd ≠ fd then s.goto (.finding fd id (some c) (s.next c))
    else
      match (s.nodes c).state with
      | .handshake => s.goto (.handshaking ⟨fd, id, prev, c⟩)
      | .established => s.goto (.reading ⟨fd, id, prev, c⟩)
      | .closed => s.goto (.cleanup ⟨fd, id, prev, c⟩)
  | .broadcasting h _ none => s.goto (.reading h)
  | .broadcasting h buf (some cur) =>
    if (s.nodes cur).state = .established ∧ cur ≠ h.c then s.goto (offer s h buf cur 0)
    else s.goto (.broadcasting h buf (s.next cur))
  | .cleanup h =>
    if (s.nodes h.c).state = .closed then
      (removeConnection { s with registered := Function.update s.registered h.fd none } h.prev
        h.c).goto .dispatch
    else s.goto .dispatch
  | _ => s

def next (s : State) : Event → State
  | .poll ready => { s with batch := ready }
  | .advance => advance s
  | .accept fd a => addConnection s fd a
  | .acceptFailed => s.goto .dispatch
  | .sslAccept r =>
    match s.pos with
    | .handshaking h =>
      let s := s.record (.accept (s.nodes h.c).id r)
      match r with
      | .done => (s.setState h.c .established).goto .dispatch
      | .wantRead | .wantWrite => s.goto .dispatch
      | .fatal => (s.setState h.c .closed).goto (.cleanup h)
    | _ => s
  | .sslRead r =>
    match s.pos with
    | .reading h =>
      let s := s.record (.read (s.nodes h.c).id r)
      match r with
      | .data bytes => s.goto (.broadcasting h bytes s.connections)
      | .wantRead | .wantWrite => s.goto (.cleanup h)
      | .zeroReturn | .fatal => (s.setState h.c .closed).goto (.cleanup h)
    | _ => s
  | .sslWrite r =>
    match s.pos with
    | .writing h buf cur written =>
      let s := s.record (.write (s.nodes cur).id buf written r)
      match r with
      | .wrote n => s.goto (offer s h buf cur (written + n))
      | .wantRead | .wantWrite => s.goto (.broadcasting h buf (s.next cur))
      | .fatal => (s.setState cur .closed).goto (.broadcasting h buf (s.next cur))
    | _ => s

def machine (listenFd : Fd) (reserved : Finset Fd) : Machine State Event :=
  ⟨initial listenFd reserved, Enabled, next⟩

instance (s : State) (r : Ready) : Decidable (r.Reported s) := by
  cases r <;> simp only [Ready.Reported] <;> infer_instance

instance (r : ReadResult) : Decidable r.Possible := by
  cases r <;> simp only [ReadResult.Possible] <;> infer_instance

instance (left : ℕ) (r : WriteResult) : Decidable (r.Possible left) := by
  cases r <;> simp only [WriteResult.Possible] <;> infer_instance

instance (s : State) (e : Event) : Decidable (Enabled s e) := by
  cases e <;> simp only [Enabled]
  case poll => infer_instance
  case accept => infer_instance
  case acceptFailed => infer_instance
  all_goals split <;> infer_instance

instance (listenFd : Fd) (reserved : Finset Fd) (s : State) (e : Event) :
    Decidable ((machine listenFd reserved).Enabled s e) := inferInstanceAs (Decidable (Enabled s e))

/-! ## Small steps of the state -/

section

variable (s : State) (a b : Addr) (st : ConnState) (c : Call) (pos : Pos)

@[simp] theorem setState_next : (s.setState a st).next = s.next := by
  funext b
  simp only [State.next, State.setState, Function.update_apply]
  split <;> simp_all

@[simp] theorem setState_fd : ((s.setState a st).nodes b).fd = (s.nodes b).fd := by
  simp only [State.setState, Function.update_apply]
  split <;> simp_all

@[simp] theorem setState_id : ((s.setState a st).nodes b).id = (s.nodes b).id := by
  simp only [State.setState, Function.update_apply]
  split <;> simp_all

theorem setState_state :
    ((s.setState a st).nodes b).state = if b = a then st else (s.nodes b).state := by
  simp only [State.setState, Function.update_apply]
  split <;> rfl

/-- Only the links of the list change. -/
theorem removeConnection_nodes (prev : Option Addr) :
    ((removeConnection s prev a).nodes b).fd = (s.nodes b).fd ∧
      ((removeConnection s prev a).nodes b).state = (s.nodes b).state ∧
        ((removeConnection s prev a).nodes b).id = (s.nodes b).id := by
  cases prev with
  | none => exact ⟨rfl, rfl, rfl⟩
  | some p =>
    simp only [removeConnection, Function.update_apply]
    split <;> simp_all

theorem removeConnection_next (p : Addr) :
    (removeConnection s (some p) a).next = Function.update s.next p (s.next a) := by
  funext b
  simp only [State.next, removeConnection, Function.update_apply]
  split <;> rfl

end

end TlsChatServer
