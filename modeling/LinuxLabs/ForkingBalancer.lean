import LinuxLabs.CString
import LinuxLabs.Channel
import LinuxLabs.Execution
import Mathlib.Data.Fin.Basic
import Mathlib.Data.List.Nodup
import Mathlib.Logic.Function.Basic

/-! # The forking load balancer and its backends (lab 12)
The parent accepts a client, dials the next backend and forks a child, which has copies of all of
its descriptors and carries one request and one reply. A backend takes one connection at a time.
The rounds of the parent number the sessions; nothing reads that number. -/
namespace ForkingBalancer

open Execution Channel
open CString (Byte)

abbrev Fd := ℕ
abbrev Session := ℕ

abbrev backendCount : ℕ := 3
abbrev Backend := Fin backendCount
instance : NeZero backendCount := ⟨by decide⟩

/-- `char buf[1024]` of a child, and of a backend. -/
def bufSize : ℕ := 1024

/-- `other` is what was open before the loop. -/
inductive File where
  | other
  | client (k : Session)
  | backend (k : Session)
  deriving DecidableEq

abbrev Table := List (Fd × File)

namespace Table

/-- A descriptor of -1 is `none`. -/
def file (t : Table) (fd : Option Fd) : Option File :=
  fd.bind fun fd => (t.find? fun e => e.1 = fd).map Prod.snd

def close (t : Table) (fd : Option Fd) : Table := t.filter fun e => some e.1 ≠ fd

def Fresh (t : Table) (fd : Option Fd) : Prop := ∀ e ∈ t, some e.1 ≠ fd

def Holds (t : Table) (f : File) : Prop := ∃ e ∈ t, e.2 = f

instance (t : Table) (fd : Option Fd) : Decidable (Fresh t fd) :=
  inferInstanceAs (Decidable (∀ e ∈ t, some e.1 ≠ fd))

instance (t : Table) (f : File) : Decidable (Holds t f) :=
  inferInstanceAs (Decidable (∃ e ∈ t, e.2 = f))

end Table

def entry (fd : Option Fd) (f : File) : Table := fd.toList.map fun fd => (fd, f)

/-- Where the parent is; in `connecting` it is in `connect_to_backend`, behind `socket`. -/
inductive Pos where
  | waiting
  | accepting
  | dialing (client : Option Fd) (b : Backend)
  | connecting (client : Option Fd) (b : Backend) (fd : Option Fd)
  | refusing (client : Option Fd)
  | forking (client backend : Option Fd)
  | closingClient (client backend : Option Fd)
  | closingBackend (backend : Option Fd)
  deriving DecidableEq

/-- The statements of a child. A write carries what the read before has put into `buf`: nothing
if it returned 0, nor if it returned -1, since `write` fails for a count of `SIZE_MAX`. -/
inductive ChildPos where
  | readClient
  | writeBackend (buf : List Byte)
  | readBackend
  | writeClient (buf : List Byte)
  | closeClient
  | closeBackend
  | exit
  | exited
  deriving DecidableEq

structure Child where
  pos : ChildPos
  client : Option Fd
  backend : Option Fd
  table : Table
  deriving DecidableEq

/-- Where a backend is, with the session of its `client_fd`. -/
inductive BackendPos where
  | accepting
  | reading (k : Session)
  | writing (k : Session) (buf : List Byte)
  | closing (k : Session)
  | killed
  deriving DecidableEq

/-- The two connections of a session. -/
structure Conn where
  backend : Backend
  fromClient : Stream Byte
  clientClosed : Bool
  toBackend : Stream Byte
  fromBackend : Stream Byte
  backendClosed : Bool
  toClient : List Byte
  deriving DecidableEq

structure State where
  table : Table
  pos : Pos
  nextBackend : Backend
  round : Session
  conns : Session → Conn
  children : Session → Option Child
  queue : Backend → List Session
  backends : Backend → BackendPos

def own (base : List Fd) : Table := base.map fun fd => (fd, .other)

def initial (base : List Fd) : State where
  table := own base
  pos := .waiting
  nextBackend := 0
  round := 0
  conns := fun _ => ⟨0, .empty, false, .empty, .empty, false, []⟩
  children := fun _ => none
  queue := fun _ => []
  backends := fun _ => .accepting

inductive ChildEvent where
  | read (n : ℕ)
  | readEnded
  | readFailed
  | write (m : ℕ)
  | killed
  | close
  | exit
  deriving DecidableEq

inductive BackendEvent where
  | accept
  | read (n : ℕ)
  | readEnded
  | readFailed
  | write (m : ℕ)
  | killed
  | close
  deriving DecidableEq

inductive ParentEvent where
  | report
  | accept (fd : Option Fd)
  | socket (fd : Option Fd)
  | connect (ok : Bool)
  | fork (ok : Bool)
  | close
  deriving DecidableEq

/-- A step of the parent, a child or a backend, or of a client from outside. -/
inductive Event where
  | parent (e : ParentEvent)
  | child (k : Session) (e : ChildEvent)
  | backend (b : Backend) (e : BackendEvent)
  | send (k : Session) (bytes : List Byte)
  | hangup (k : Session)
  deriving DecidableEq

/-! ## What the calls do -/

def State.setConn (s : State) (k : Session) (c : Conn) : State :=
  { s with conns := Function.update s.conns k c }

def State.setChild (s : State) (k : Session) (c : Child) : State :=
  { s with children := Function.update s.children k (some c) }

def State.setBackend (s : State) (b : Backend) (p : BackendPos) : State :=
  { s with backends := Function.update s.backends b p }

/-- What a read there finds. -/
def State.incoming (s : State) : Option File → List Byte
  | some (.client k) => (s.conns k).fromClient.pending
  | some (.backend k) => (s.conns k).fromBackend.pending
  | some .other | none => []

def State.take (s : State) (n : ℕ) : Option File → State
  | some (.client k) =>
    s.setConn k { s.conns k with fromClient := (s.conns k).fromClient.read n }
  | some (.backend k) =>
    s.setConn k { s.conns k with fromBackend := (s.conns k).fromBackend.read n }
  | some .other | none => s

def State.put (s : State) (bytes : List Byte) : Option File → State
  | some (.client k) =>
    s.setConn k { s.conns k with toClient := (s.conns k).toClient ++ bytes }
  | some (.backend k) =>
    s.setConn k { s.conns k with toBackend := (s.conns k).toBackend.write bytes }
  | some .other | none => s

/-- The other side has closed its end. -/
def State.peerClosed (s : State) : Option File → Bool
  | some (.client k) => (s.conns k).clientClosed
  | some (.backend k) => (s.conns k).backendClosed
  | some .other | none => false

/-- A client can reset its connection at any time, a backend does when it closes. -/
def State.mayFail (s : State) : Option File → Bool
  | some (.backend k) => (s.conns k).backendClosed
  | some (.client _) | some .other | none => true

/-- Some process of the balancer has the file open. -/
def State.Held (s : State) (f : File) : Prop :=
  s.table.Holds f ∨ ∃ k ∈ List.range (s.round + 1), ∃ c ∈ s.children k, c.table.Holds f

instance (s : State) (f : File) : Decidable (s.Held f) :=
  inferInstanceAs (Decidable (_ ∨ _))

/-! ## The parent -/

def parentEnabled (s : State) (e : ParentEvent) : Prop :=
  match s.pos, e with
  | .waiting, .report => True
  | .accepting, .accept fd | .dialing _ _, .socket fd => s.table.Fresh fd
  | .connecting _ _ fd, .connect ok => ok = true → fd ≠ none
  | .forking _ _, .fork _ => True
  | .refusing _, .close | .closingClient _ _, .close | .closingBackend _, .close => True
  | _, _ => False

/-- `next_backend` moves on before the backend is known to answer. -/
def parentNext (s : State) (e : ParentEvent) : State :=
  match s.pos, e with
  | .waiting, .report => { s with pos := .accepting }
  | .accepting, .accept fd =>
    { s with
      table := s.table ++ entry fd (.client s.round)
      pos := .dialing fd s.nextBackend
      nextBackend := s.nextBackend + 1 }
  | .dialing c b, .socket fd =>
    { s with table := s.table ++ entry fd (.backend s.round), pos := .connecting c b fd }
  | .connecting c b fd, .connect true =>
    { s.setConn s.round { s.conns s.round with backend := b } with
      queue := Function.update s.queue b (s.queue b ++ [s.round])
      pos := .forking c fd }
  | .connecting c _ fd, .connect false =>
    { s with table := s.table.close fd, pos := .refusing c }
  | .refusing c, .close =>
    { s with table := s.table.close c, pos := .waiting, round := s.round + 1 }
  | .forking c fd, .fork true =>
    { s.setChild s.round ⟨.readClient, c, fd, s.table⟩ with pos := .closingClient c fd }
  | .forking c fd, .fork false => { s with pos := .closingClient c fd }
  | .closingClient c fd, .close =>
    { s with table := s.table.close c, pos := .closingBackend fd }
  | .closingBackend fd, .close =>
    { s with table := s.table.close fd, pos := .waiting, round := s.round + 1 }
  | _, _ => s

/-! ## The child -/

/-- The descriptor of the statement. -/
def Child.fd (c : Child) : Option Fd :=
  match c.pos with
  | .readClient | .writeClient _ | .closeClient => c.client
  | .readBackend | .writeBackend _ | .closeBackend => c.backend
  | .exit | .exited => none

def Child.file (c : Child) : Option File := c.table.file c.fd

def ChildPos.Reads : ChildPos → Prop
  | .readClient | .readBackend => True
  | _ => False

def ChildPos.outgoing : ChildPos → Option (List Byte)
  | .writeBackend buf | .writeClient buf => some buf
  | _ => none

def ChildPos.Closes : ChildPos → Prop
  | .closeClient | .closeBackend => True
  | _ => False

/-- The statement behind this one, `buf` being what a read has left. -/
def ChildPos.then (buf : List Byte) : ChildPos → ChildPos
  | .readClient => .writeBackend buf
  | .writeBackend _ => .readBackend
  | .readBackend => .writeClient buf
  | .writeClient _ => .closeClient
  | .closeClient => .closeBackend
  | .closeBackend => .exit
  | .exit | .exited => .exited

def Child.advance (c : Child) (buf : List Byte) : Child := { c with pos := c.pos.then buf }

def Child.gone (c : Child) : Child := { c with pos := .exited, table := [] }

def childEnabled (s : State) (c : Child) : ChildEvent → Prop
  | .read n => c.pos.Reads ∧ 0 < n ∧ n ≤ bufSize ∧ n ≤ (s.incoming c.file).length
  | .readEnded => c.pos.Reads ∧ s.incoming c.file = [] ∧ s.peerClosed c.file = true
  | .readFailed => c.pos.Reads ∧ s.mayFail c.file = true
  | .write m => ∃ buf ∈ c.pos.outgoing, m ≤ buf.length
  | .killed => (∃ buf ∈ c.pos.outgoing, buf ≠ []) ∧ s.peerClosed c.file = true
  | .close => c.pos.Closes
  | .exit => c.pos = .exit

def childNext (s : State) (k : Session) (c : Child) : ChildEvent → State
  | .read n => (s.take n c.file).setChild k (c.advance ((s.incoming c.file).take n))
  | .readEnded | .readFailed => s.setChild k (c.advance [])
  | .write m => (s.put ((c.pos.outgoing.getD []).take m) c.file).setChild k (c.advance [])
  | .close => s.setChild k { c.advance [] with table := c.table.close c.fd }
  | .killed | .exit => s.setChild k c.gone

/-! ## The backend -/

def backendEnabled (s : State) (b : Backend) (e : BackendEvent) : Prop :=
  match s.backends b, e with
  | .accepting, .accept => s.queue b ≠ []
  | .reading k, .read n =>
    0 < n ∧ n ≤ bufSize - 1 ∧ n ≤ (s.conns k).toBackend.pending.length
  | .reading k, .readEnded => (s.conns k).toBackend.pending = [] ∧ ¬ s.Held (.backend k)
  | .reading k, .readFailed => ¬ s.Held (.backend k)
  | .writing _ buf, .write m => m ≤ buf.length
  | .writing k _, .killed => ¬ s.Held (.backend k)
  | .closing _, .close => True
  | _, _ => False

def backendNext (s : State) (b : Backend) (e : BackendEvent) : State :=
  match s.backends b, e with
  | .accepting, .accept =>
    match s.queue b with
    | [] => s
    | k :: rest => { s.setBackend b (.reading k) with queue := Function.update s.queue b rest }
  | .reading k, .read n =>
    (s.setConn k { s.conns k with toBackend := (s.conns k).toBackend.read n }).setBackend b
      (.writing k ((s.conns k).toBackend.pending.take n))
  | .reading k, .readEnded | .reading k, .readFailed => s.setBackend b (.closing k)
  | .writing k buf, .write m =>
    (s.setConn k { s.conns k with
      fromBackend := (s.conns k).fromBackend.write (buf.take m) }).setBackend b (.closing k)
  | .writing _ _, .killed => s.setBackend b .killed
  | .closing k, .close =>
    (s.setConn k { s.conns k with backendClosed := true }).setBackend b .accepting
  | _, _ => s

/-! ## The whole system -/

def Enabled (s : State) : Event → Prop
  | .parent e => parentEnabled s e
  | .child k e => ∃ c ∈ s.children k, childEnabled s c e
  | .backend b e => backendEnabled s b e
  | .send k _ | .hangup k => (s.conns k).clientClosed = false

def next (s : State) : Event → State
  | .parent e => parentNext s e
  | .child k e =>
    match s.children k with
    | none => s
    | some c => childNext s k c e
  | .backend b e => backendNext s b e
  | .send k bytes =>
    s.setConn k { s.conns k with fromClient := (s.conns k).fromClient.write bytes }
  | .hangup k => s.setConn k { s.conns k with clientClosed := true }

def machine (base : List Fd) : Machine State Event := ⟨initial base, Enabled, next⟩

instance (s : State) (c : Child) (e : ChildEvent) : Decidable (childEnabled s c e) := by
  have hreads : DecidablePred ChildPos.Reads := fun p => by
    casesm ChildPos <;> simp only [ChildPos.Reads] <;> infer_instance
  have hcloses : DecidablePred ChildPos.Closes := fun p => by
    casesm ChildPos <;> simp only [ChildPos.Closes] <;> infer_instance
  casesm ChildEvent <;> simp only [childEnabled] <;> infer_instance

instance (s : State) (e : ParentEvent) : Decidable (parentEnabled s e) := by
  unfold parentEnabled
  generalize s.pos = pos
  casesm* Pos, ParentEvent <;> infer_instance

instance (s : State) (b : Backend) (e : BackendEvent) : Decidable (backendEnabled s b e) := by
  unfold backendEnabled
  generalize s.backends b = pos
  casesm* BackendPos, BackendEvent <;> infer_instance

instance (s : State) (e : Event) : Decidable (Enabled s e) := by
  casesm Event <;> simp only [Enabled] <;> infer_instance

instance (base : List Fd) (s : State) (e : Event) : Decidable ((machine base).Enabled s e) :=
  inferInstanceAs (Decidable (Enabled s e))

/-- The backend of the `k`-th round, whatever came of the rounds before. -/
def turn (k : Session) : Backend := Fin.ofNat backendCount k

theorem turn_succ (k : Session) : turn (k + 1) = turn k + 1 := by
  apply Fin.ext
  simp only [turn, Fin.val_ofNat, Fin.val_add, backendCount, Fin.val_one]
  omega

/-! ## Descriptor tables -/

variable {base : List Fd} {t u : Table} {c fd fd' : Option Fd} {f g : File} {k : Session}

namespace Table

theorem close_append : (t ++ u).close fd = t.close fd ++ u.close fd := List.filter_append _ _

theorem close_fresh (h : t.Fresh fd) : t.close fd = t :=
  List.filter_eq_self.mpr fun e he => decide_eq_true (h e he)

theorem fresh_none : t.Fresh none := fun _ _ h => Option.some_ne_none _ h

theorem fresh_append : (t ++ u).Fresh fd ↔ t.Fresh fd ∧ u.Fresh fd := List.forall_mem_append

theorem holds_append : (t ++ u).Holds f ↔ t.Holds f ∨ u.Holds f := by
  simp only [Holds, List.mem_append, or_and_right, exists_or]

/-- The first entry of a descriptor counts. -/
theorem file_append (h : t.Fresh fd) : (t ++ u).file fd = u.file fd := by
  cases fd with
  | none => rfl
  | some a =>
    have hnone : t.find? (fun e => e.1 = a) = none := by
      rw [List.find?_eq_none]
      intro e he heq
      exact h e he (congrArg some (of_decide_eq_true heq))
    simp only [file, Option.bind_some, List.find?_append, hnone, Option.none_or]

end Table

theorem entry_none : entry none f = [] := rfl

theorem fresh_entry : (entry fd f).Fresh fd' ↔ fd = none ∨ fd ≠ fd' := by
  cases fd <;> simp [entry, Table.Fresh]

theorem close_entry : (entry fd f).close fd = [] := by
  cases fd <;> simp [entry, Table.close]

theorem holds_entry : (entry fd f).Holds g ↔ fd ≠ none ∧ f = g := by
  cases fd <;> simp [entry, Table.Holds]

theorem file_entry : (entry fd f ++ t).file fd = fd.map fun _ => f := by
  cases fd <;> simp [entry, Table.file]

/-- The table of a process that has the two ends of a session open beside what it had before. -/
def sessionTable (t : Table) (k : Session) (c fd : Option Fd) : Table :=
  t ++ (entry c (.client k) ++ entry fd (.backend k))

/-- The descriptors of the two ends are apart from the others and from each other. -/
structure Apart (t : Table) (c fd : Option Fd) : Prop where
  client : t.Fresh c
  backend : t.Fresh fd
  distinct : c = none ∨ c ≠ fd

theorem apart_none (t : Table) : Apart t none none :=
  ⟨Table.fresh_none, Table.fresh_none, Or.inl rfl⟩

theorem apart_client (h : t.Fresh c) : Apart t c none := by
  refine ⟨h, Table.fresh_none, ?_⟩
  cases c <;> simp

/-- A new descriptor is apart from those in the table. -/
theorem Apart.backend_of_fresh (h : Apart t c none) (hf : (sessionTable t k c none).Fresh fd) :
    Apart t c fd := by
  obtain ⟨ht, he⟩ := Table.fresh_append.mp hf
  obtain ⟨hc, -⟩ := Table.fresh_append.mp he
  exact ⟨h.client, ht, fresh_entry.mp hc⟩

theorem Apart.left (h : Apart t c fd) : Apart t c none := apart_client h.client

theorem Apart.right (h : Apart t c fd) : Apart t none fd :=
  ⟨Table.fresh_none, h.backend, Or.inl rfl⟩

theorem sessionTable_none : sessionTable t k none none = t := List.append_nil t

theorem close_client (h : Apart t c fd) :
    (sessionTable t k c fd).close c = sessionTable t k none fd := by
  have hfd : (entry fd (.backend k)).Fresh c := by
    rw [fresh_entry]
    rcases h.distinct with rfl | hne
    · exact (eq_or_ne fd none).imp_right fun hne => hne
    · exact Or.inr hne.symm
  simp only [sessionTable, Table.close_append, Table.close_fresh h.client, close_entry,
    Table.close_fresh hfd, entry_none]

theorem close_backend (h : Apart t c fd) :
    (sessionTable t k c fd).close fd = sessionTable t k c none := by
  simp only [sessionTable, Table.close_append, Table.close_fresh h.backend, close_entry,
    Table.close_fresh (fresh_entry.mpr h.distinct), entry_none]

theorem file_client (h : Apart t c fd) :
    (sessionTable t k c fd).file c = c.map fun _ => .client k := by
  rw [sessionTable, Table.file_append h.client, file_entry]

theorem file_backend (h : Apart t c fd) :
    (sessionTable t k c fd).file fd = fd.map fun _ => .backend k := by
  have hc : (entry c (.client k)).Fresh fd := fresh_entry.mpr h.distinct
  rw [sessionTable, Table.file_append h.backend, Table.file_append hc]
  conv_lhs => rw [← List.append_nil (entry fd _)]
  exact file_entry

theorem sessionTable_holds {f : File} (h : (sessionTable (own base) k c fd).Holds f) :
    f = .other ∨ c ≠ none ∧ f = .client k ∨ fd ≠ none ∧ f = .backend k := by
  rw [sessionTable, Table.holds_append, Table.holds_append, holds_entry, holds_entry] at h
  rcases h with ⟨e, he, rfl⟩ | ⟨hc, rfl⟩ | ⟨hfd, rfl⟩
  · obtain ⟨a, -, rfl⟩ := List.mem_map.mp he
    exact Or.inl rfl
  · exact Or.inr (Or.inl ⟨hc, rfl⟩)
  · exact Or.inr (Or.inr ⟨hfd, rfl⟩)

theorem holds_backend (h : fd ≠ none) : (sessionTable t k c fd).Holds (.backend k) := by
  rw [sessionTable, Table.holds_append, Table.holds_append]
  exact Or.inr (Or.inr (holds_entry.mpr ⟨h, rfl⟩))

/-- The two ends the parent has open there. -/
def Pos.ends : Pos → Option Fd × Option Fd
  | .waiting | .accepting => (none, none)
  | .dialing c _ | .refusing c => (c, none)
  | .connecting c _ fd | .forking c fd | .closingClient c fd => (c, fd)
  | .closingBackend fd => (none, fd)

def Pos.Forked : Pos → Prop
  | .closingClient _ _ | .closingBackend _ => True
  | _ => False

/-- The child has closed none, one or both of its ends, or all it had. -/
structure Child.Fits (c : Child) (t : Table) (k : Session) : Prop where
  apart : Apart t c.client c.backend
  open_ : c.backend ≠ none
  table : c.table =
    match c.pos with
    | .closeBackend => sessionTable t k none c.backend
    | .exit => t
    | .exited => []
    | _ => sessionTable t k c.client c.backend

structure Tables (base : List Fd) (s : State) : Prop where
  parent : s.table = sessionTable (own base) s.round s.pos.ends.1 s.pos.ends.2
  apart : Apart (own base) s.pos.ends.1 s.pos.ends.2
  dialed : ∀ c fd, s.pos = .forking c fd → fd ≠ none
  child : ∀ k, ∀ c ∈ s.children k, c.Fits (own base) k
  started : ∀ k, ∀ c ∈ s.children k, k < s.round ∨ k = s.round ∧ s.pos.Forked

variable {s : State}

theorem tables_initial (base : List Fd) : Tables base (initial base) where
  parent := sessionTable_none.symm
  apart := apart_none _
  dialed := nofun
  child := nofun
  started := nofun

/-- What concerns the children only. -/
theorem Tables.keep (h : Tables base s) {table : Table} {pos : Pos} {round : Session}
    {b : Backend} {conns : Session → Conn} {queue : Backend → List Session}
    (hp : table = sessionTable (own base) round pos.ends.1 pos.ends.2)
    (ha : Apart (own base) pos.ends.1 pos.ends.2)
    (hd : ∀ c fd, pos = .forking c fd → fd ≠ none)
    (hr : s.round < round ∨ s.round = round ∧ (s.pos.Forked → pos.Forked)) :
    Tables base { s with
      table := table, pos := pos, nextBackend := b, round := round, conns := conns
      queue := queue } where
  parent := hp
  apart := ha
  dialed := hd
  child := h.child
  started := by
    intro k c hc
    have hk := h.started k c hc
    dsimp only
    rcases hr with hlt | ⟨rfl, hf⟩
    · refine Or.inl ?_
      rcases hk with hk | ⟨rfl, -⟩
      · exact hk.trans hlt
      · exact hlt
    · exact hk.imp_right fun hk => ⟨hk.1, hf hk.2⟩

/-! ## What each party can do -/

/-- What a step of the parent can be. -/
inductive ParentStep (s : State) : State → Prop where
  | report (hp : s.pos = .waiting) : ParentStep s { s with pos := .accepting }
  | accept (fd : Option Fd) (hp : s.pos = .accepting) (hf : s.table.Fresh fd) :
    ParentStep s { s with
      table := s.table ++ entry fd (.client s.round)
      pos := .dialing fd s.nextBackend
      nextBackend := s.nextBackend + 1 }
  | socket (c : Option Fd) (b : Backend) (fd : Option Fd) (hp : s.pos = .dialing c b)
      (hf : s.table.Fresh fd) :
    ParentStep s { s with
      table := s.table ++ entry fd (.backend s.round), pos := .connecting c b fd }
  | connected (c : Option Fd) (b : Backend) (fd : Option Fd) (hp : s.pos = .connecting c b fd)
      (hfd : fd ≠ none) :
    ParentStep s { s.setConn s.round { s.conns s.round with backend := b } with
      queue := Function.update s.queue b (s.queue b ++ [s.round])
      pos := .forking c fd }
  | refused (c : Option Fd) (b : Backend) (fd : Option Fd) (hp : s.pos = .connecting c b fd) :
    ParentStep s { s with table := s.table.close fd, pos := .refusing c }
  | drop (c : Option Fd) (hp : s.pos = .refusing c) :
    ParentStep s { s with table := s.table.close c, pos := .waiting, round := s.round + 1 }
  | forked (c fd : Option Fd) (hp : s.pos = .forking c fd) :
    ParentStep s { s.setChild s.round ⟨.readClient, c, fd, s.table⟩ with
      pos := .closingClient c fd }
  | unforked (c fd : Option Fd) (hp : s.pos = .forking c fd) :
    ParentStep s { s with pos := .closingClient c fd }
  | closeClient (c fd : Option Fd) (hp : s.pos = .closingClient c fd) :
    ParentStep s { s with table := s.table.close c, pos := .closingBackend fd }
  | closeBackend (fd : Option Fd) (hp : s.pos = .closingBackend fd) :
    ParentStep s { s with table := s.table.close fd, pos := .waiting, round := s.round + 1 }

theorem parent_step {e : ParentEvent} (he : parentEnabled s e) :
    ParentStep s (parentNext s e) := by
  unfold parentEnabled at he
  unfold parentNext
  cases hp : s.pos <;> cases e <;> simp only [hp] at he ⊢
  case waiting.report => exact .report hp
  case accepting.accept fd => exact .accept fd hp he
  case dialing.socket c b fd => exact .socket c b fd hp he
  case connecting.connect c b fd ok =>
    cases ok with
    | true => exact .connected c b fd hp (he rfl)
    | false => exact .refused c b fd hp
  case refusing.close c => exact .drop c hp
  case forking.fork c fd ok =>
    cases ok with
    | true => exact .forked c fd hp
    | false => exact .unforked c fd hp
  case closingClient.close c fd => exact .closeClient c fd hp
  case closingBackend.close fd => exact .closeBackend fd hp

/-- What a step of a child can make of the connections of its session and of itself. -/
inductive ChildStep (cl : Conn) (c : Child) : Conn → Child → Prop where
  | readClient (n : ℕ) (hp : c.pos = .readClient) :
    ChildStep cl c { cl with fromClient := cl.fromClient.read n }
      (c.advance (cl.fromClient.pending.take n))
  | skipClient (hp : c.pos = .readClient) : ChildStep cl c cl (c.advance [])
  | writeBackend (buf : List Byte) (m : ℕ) (hp : c.pos = .writeBackend buf) :
    ChildStep cl c { cl with toBackend := cl.toBackend.write (buf.take m) } (c.advance [])
  | readBackend (n : ℕ) (hp : c.pos = .readBackend) (hn : cl.fromBackend.pending ≠ []) :
    ChildStep cl c { cl with fromBackend := cl.fromBackend.read n }
      (c.advance (cl.fromBackend.pending.take n))
  | skipBackend (hp : c.pos = .readBackend) (hc : cl.backendClosed = true) :
    ChildStep cl c cl (c.advance [])
  | writeClient (buf : List Byte) (m : ℕ) (hp : c.pos = .writeClient buf) :
    ChildStep cl c { cl with toClient := cl.toClient ++ buf.take m } (c.advance [])
  | mute (buf : List Byte) (hp : c.pos = .writeClient buf) : ChildStep cl c cl (c.advance [])
  | killedBackend (buf : List Byte) (hp : c.pos = .writeBackend buf)
      (hc : cl.backendClosed = true) : ChildStep cl c cl c.gone
  | killedClient (buf : List Byte) (hp : c.pos = .writeClient buf) : ChildStep cl c cl c.gone
  | close (hp : c.pos.Closes) :
    ChildStep cl c cl { c.advance [] with table := c.table.close c.fd }
  | exit (hp : c.pos = .exit) : ChildStep cl c cl c.gone

theorem setConn_self (s : State) (k : Session) : s.setConn k (s.conns k) = s := by
  simp only [State.setConn, Function.update_eq_self]

/-- A child finds the client of its session behind its `client_fd`, if `accept` gave one. -/
theorem Child.Fits.file_client {c : Child} (h : c.Fits t k)
    (hp : c.pos = .readClient ∨ ∃ buf, c.pos = .writeClient buf) :
    c.file = c.client.map fun _ => .client k := by
  obtain ⟨ha, -, ht⟩ := h
  rcases hp with hp | ⟨buf, hp⟩
  all_goals
    simp only [hp] at ht
    simp only [Child.file, Child.fd, hp, ht]
    exact ForkingBalancer.file_client ha

theorem Child.Fits.file_backend {c : Child} (h : c.Fits t k)
    (hp : c.pos = .readBackend ∨ ∃ buf, c.pos = .writeBackend buf) :
    c.file = some (.backend k) := by
  obtain ⟨ha, hb, ht⟩ := h
  obtain ⟨fd, hfd⟩ := Option.ne_none_iff_exists'.mp hb
  have hfile := ForkingBalancer.file_backend (k := k) ha
  rcases hp with hp | ⟨buf, hp⟩
  all_goals
    simp only [hp] at ht
    simp only [Child.file, Child.fd, hp, ht]
    rw [hfile, hfd, Option.map_some]

theorem child_step {c : Child} (hf : c.Fits t k) {e : ChildEvent} (he : childEnabled s c e) :
    ∃ cl c', childNext s k c e = (s.setConn k cl).setChild k c' ∧
      ChildStep (s.conns k) c cl c' := by
  have hsame (c' : Child) (h : ChildStep (s.conns k) c (s.conns k) c') :
      ∃ cl d, s.setChild k c' = (s.setConn k cl).setChild k d ∧ ChildStep (s.conns k) c cl d :=
    ⟨s.conns k, c', by rw [setConn_self], h⟩
  cases e with
  | read n =>
    obtain ⟨hr, hn, -, hlen⟩ := he
    cases hp : c.pos <;> simp only [hp, ChildPos.Reads] at hr
    case readClient =>
      have hfile := hf.file_client (Or.inl hp)
      cases hc : c.client with
      | none =>
        simp only [hfile, hc, Option.map_none, State.incoming, List.length_nil] at hlen
        omega
      | some a =>
        simp only [childNext, hfile, hc, Option.map_some, State.incoming, State.take]
        exact ⟨_, _, rfl, .readClient n hp⟩
    case readBackend =>
      have hfile := hf.file_backend (Or.inl hp)
      simp only [hfile, State.incoming] at hlen
      simp only [childNext, hfile, State.incoming, State.take]
      refine ⟨_, _, rfl, .readBackend n hp ?_⟩
      intro hnil
      rw [hnil, List.length_nil] at hlen
      omega
  | readEnded =>
    obtain ⟨hr, -, hclosed⟩ := he
    apply hsame
    cases hp : c.pos <;> simp only [hp, ChildPos.Reads] at hr
    case readClient => exact .skipClient hp
    case readBackend =>
      rw [hf.file_backend (Or.inl hp)] at hclosed
      exact .skipBackend hp hclosed
  | readFailed =>
    obtain ⟨hr, hclosed⟩ := he
    apply hsame
    cases hp : c.pos <;> simp only [hp, ChildPos.Reads] at hr
    case readClient => exact .skipClient hp
    case readBackend =>
      rw [hf.file_backend (Or.inl hp)] at hclosed
      exact .skipBackend hp hclosed
  | write m =>
    obtain ⟨buf, hbuf, -⟩ := he
    cases hp : c.pos <;> simp [hp, ChildPos.outgoing] at hbuf
    case writeBackend =>
      subst hbuf
      have hfile := hf.file_backend (Or.inr ⟨_, hp⟩)
      simp only [childNext, hfile, State.put, hp, ChildPos.outgoing, Option.getD_some]
      exact ⟨_, _, rfl, .writeBackend _ m hp⟩
    case writeClient =>
      subst hbuf
      have hfile := hf.file_client (Or.inr ⟨_, hp⟩)
      cases hc : c.client with
      | none =>
        simp only [childNext, hfile, hc, Option.map_none, State.put]
        exact hsame _ (.mute _ hp)
      | some a =>
        simp only [childNext, hfile, hc, Option.map_some, State.put, hp, ChildPos.outgoing,
          Option.getD_some]
        exact ⟨_, _, rfl, .writeClient _ m hp⟩
  | killed =>
    obtain ⟨⟨buf, hbuf, -⟩, hclosed⟩ := he
    apply hsame
    cases hp : c.pos <;> simp only [hp, ChildPos.outgoing, Option.mem_def, reduceCtorEq] at hbuf
    case writeBackend =>
      rw [hf.file_backend (Or.inr ⟨_, hp⟩)] at hclosed
      exact .killedBackend _ hp hclosed
    case writeClient => exact .killedClient _ hp
  | close => exact hsame _ (.close he)
  | exit => exact hsame _ (.exit he)

/-- What a step of a backend can be. -/
inductive BackendStep (s : State) (b : Backend) : State → Prop where
  | accept (k : Session) (rest : List Session) (hp : s.backends b = .accepting)
      (hq : s.queue b = k :: rest) :
    BackendStep s b { s.setBackend b (.reading k) with
      queue := Function.update s.queue b rest }
  | read (k : Session) (n : ℕ) (hp : s.backends b = .reading k) (hn : 0 < n)
      (hcap : n ≤ bufSize - 1) (hlen : n ≤ (s.conns k).toBackend.pending.length) :
    BackendStep s b ((s.setConn k { s.conns k with
      toBackend := (s.conns k).toBackend.read n }).setBackend b
        (.writing k ((s.conns k).toBackend.pending.take n)))
  | skip (k : Session) (hp : s.backends b = .reading k) (hheld : ¬ s.Held (.backend k)) :
    BackendStep s b (s.setBackend b (.closing k))
  | write (k : Session) (buf : List Byte) (m : ℕ) (hp : s.backends b = .writing k buf) :
    BackendStep s b ((s.setConn k { s.conns k with
      fromBackend := (s.conns k).fromBackend.write (buf.take m) }).setBackend b (.closing k))
  | killed (k : Session) (buf : List Byte) (hp : s.backends b = .writing k buf)
      (hheld : ¬ s.Held (.backend k)) : BackendStep s b (s.setBackend b .killed)
  | close (k : Session) (hp : s.backends b = .closing k) :
    BackendStep s b ((s.setConn k { s.conns k with backendClosed := true }).setBackend b
      .accepting)

theorem backend_step {b : Backend} {e : BackendEvent} (he : backendEnabled s b e) :
    BackendStep s b (backendNext s b e) := by
  unfold backendEnabled at he
  unfold backendNext
  cases hp : s.backends b <;> cases e <;> simp only [hp] at he ⊢
  case accepting.accept =>
    obtain ⟨k, rest, hq⟩ := List.exists_cons_of_ne_nil he
    rw [hq]
    exact .accept k rest hp hq
  case reading.read k n => exact .read k n hp he.1 he.2.1 he.2.2
  case reading.readEnded k => exact .skip k hp he.2
  case reading.readFailed k => exact .skip k hp he
  case writing.write k buf m => exact .write k buf m hp
  case writing.killed k buf => exact .killed k buf hp he
  case closing.close k => exact .close k hp

/-! ## The tables -/

theorem tables_parent (h : Tables base s) {s' : State} (hs : ParentStep s s') :
    Tables base s' := by
  obtain ⟨hp, ha, hd, hchild, hstart⟩ := id h
  cases hs with
  | report hpos =>
    rw [hpos] at hp
    exact h.keep hp (apart_none _) (by simp) (Or.inr ⟨rfl, by simp [hpos, Pos.Forked]⟩)
  | accept fd hpos hf =>
    rw [hpos] at hp
    rw [hp, Pos.ends, sessionTable_none] at hf ⊢
    refine h.keep ?_ (apart_client hf) (by simp) (Or.inr ⟨rfl, by simp [hpos, Pos.Forked]⟩)
    simp only [Pos.ends, sessionTable, entry_none, List.append_nil]
  | socket c b fd hpos hf =>
    rw [hpos] at hp ha
    rw [hp] at hf ⊢
    refine h.keep ?_ (ha.backend_of_fresh hf) (by simp)
      (Or.inr ⟨rfl, by simp [hpos, Pos.Forked]⟩)
    simp only [Pos.ends, sessionTable, entry_none, List.append_nil, List.append_assoc]
  | connected c b fd hpos hfd =>
    rw [hpos] at hp ha
    refine h.keep hp ha ?_ (Or.inr ⟨rfl, by simp [hpos, Pos.Forked]⟩)
    rintro c' fd' heq
    cases heq
    exact hfd
  | refused c b fd hpos =>
    rw [hpos] at hp ha
    refine h.keep ?_ ha.left (by simp) (Or.inr ⟨rfl, by simp [hpos, Pos.Forked]⟩)
    rw [hp]
    exact close_backend ha
  | drop c hpos =>
    rw [hpos] at hp ha
    refine h.keep ?_ (apart_none _) (by simp) (Or.inl s.round.lt_succ_self)
    rw [hp]
    exact (close_client ha).trans (sessionTable_none.trans sessionTable_none.symm)
  | forked c fd hpos =>
    rw [hpos] at hp ha
    refine ⟨hp, ha, by simp, ?_, ?_⟩
    · intro k ch hch
      by_cases hk : k = s.round
      · subst hk
        simp only [State.setChild, Function.update_self, Option.mem_some_iff] at hch
        subst hch
        exact ⟨ha, hd c fd hpos, hp⟩
      · simp only [State.setChild, Function.update_of_ne hk] at hch
        exact hchild k ch hch
    · intro k ch hch
      by_cases hk : k = s.round
      · exact Or.inr ⟨hk, trivial⟩
      · simp only [State.setChild, Function.update_of_ne hk] at hch
        exact (hstart k ch hch).imp_right fun hr => absurd hr.1 hk
  | unforked c fd hpos =>
    rw [hpos] at hp ha
    exact h.keep hp ha (by simp) (Or.inr ⟨rfl, by simp [hpos, Pos.Forked]⟩)
  | closeClient c fd hpos =>
    rw [hpos] at hp ha
    refine h.keep ?_ ha.right (by simp) (Or.inr ⟨rfl, fun _ => trivial⟩)
    rw [hp]
    exact close_client ha
  | closeBackend fd hpos =>
    rw [hpos] at hp ha
    refine h.keep ?_ (apart_none _) (by simp) (Or.inl s.round.lt_succ_self)
    rw [hp]
    exact (close_backend ha).trans (sessionTable_none.trans sessionTable_none.symm)

/-- Closing its ends one after the other, a child comes to what it had before the session. -/
theorem ChildStep.fits {cl cl' : Conn} {c c' : Child} (hs : ChildStep cl c cl' c')
    (h : c.Fits t k) : c'.Fits t k := by
  obtain ⟨ha, hb, ht⟩ := h
  refine ⟨?_, ?_, ?_⟩
  · cases hs <;> exact ha
  · cases hs <;> exact hb
  · cases hs with
    | close hp =>
      cases hpos : c.pos <;> simp only [hpos, ChildPos.Closes] at hp ht
      case closeClient =>
        simp only [Child.advance, ChildPos.then, Child.fd, hpos, ht]
        exact close_client ha
      case closeBackend =>
        simp only [Child.advance, ChildPos.then, Child.fd, hpos, ht]
        exact (close_backend ha.right).trans sessionTable_none
    | killedBackend | killedClient | exit => rfl
    | readClient n hp | skipClient hp | writeBackend _ n hp | readBackend n hp | skipBackend hp
    | writeClient _ n hp | mute _ hp =>
      simp only [hp] at ht
      simp only [Child.advance, ChildPos.then, hp, ht]

theorem tables_child (h : Tables base s) {c c' : Child} (hc : c ∈ s.children k)
    {cl : Conn} (hs : ChildStep (s.conns k) c cl c') :
    Tables base ((s.setConn k cl).setChild k c') := by
  refine ⟨h.parent, h.apart, h.dialed, ?_, ?_⟩
  · intro j d hd
    by_cases hj : j = k
    · subst hj
      simp only [State.setChild, Function.update_self, Option.mem_some_iff] at hd
      subst hd
      exact hs.fits (h.child j c hc)
    · simp only [State.setChild, Function.update_of_ne hj] at hd
      exact h.child j d hd
  · intro j d hd
    by_cases hj : j = k
    · subst hj
      exact h.started j c hc
    · simp only [State.setChild, Function.update_of_ne hj] at hd
      exact h.started j d hd

theorem tables_backend (h : Tables base s) {b : Backend} {s' : State}
    (hs : BackendStep s b s') : Tables base s' := by
  cases hs <;> exact ⟨h.parent, h.apart, h.dialed, h.child, h.started⟩

theorem tables_next (h : Tables base s) {e : Event} (he : Enabled s e) :
    Tables base (next s e) := by
  cases e with
  | parent e => exact tables_parent h (parent_step he)
  | child k e =>
    obtain ⟨c, hc, he⟩ := he
    obtain ⟨cl, c', heq, hs⟩ := child_step (h.child k c hc) he
    simp only [next, Option.mem_def.mp hc, heq]
    exact tables_child h hc hs
  | backend b e => exact tables_backend h (backend_step he)
  | send k bytes => exact ⟨h.parent, h.apart, h.dialed, h.child, h.started⟩
  | hangup k => exact ⟨h.parent, h.apart, h.dialed, h.child, h.started⟩

/-! ## What has been relayed -/

/-- How far the data of a session has come, by the statement its child is at. -/
def Carried (cl : Conn) : Option ChildPos → Prop
  | none | some .readClient => cl.fromClient.received = [] ∧ cl.toBackend.written = [] ∧
    cl.fromBackend.received = [] ∧ cl.toClient = []
  | some (.writeBackend buf) => cl.fromClient.received = buf ∧ cl.toBackend.written = [] ∧
    cl.fromBackend.received = [] ∧ cl.toClient = []
  | some .readBackend => cl.toBackend.written <+: cl.fromClient.received ∧
    cl.fromBackend.received = [] ∧ cl.toClient = []
  | some (.writeClient buf) => cl.toBackend.written <+: cl.fromClient.received ∧
    cl.fromBackend.received = buf ∧ cl.toClient = []
  | some .closeClient | some .closeBackend | some .exit | some .exited =>
    cl.toBackend.written <+: cl.fromClient.received ∧ cl.toClient <+: cl.fromBackend.received

def Relay (s : State) : Prop := ∀ k, Carried (s.conns k) ((s.children k).map Child.pos)

theorem relay_initial (base : List Fd) : Relay (initial base) := fun _ => ⟨rfl, rfl, rfl, rfl⟩

theorem ChildStep.carried {cl cl' : Conn} {c c' : Child} (hs : ChildStep cl c cl' c')
    (h : Carried cl (some c.pos)) : Carried cl' (some c'.pos) := by
  cases hs with
  | readClient n hp =>
    rw [hp] at h
    obtain ⟨hr, hw, hb, hc⟩ := h
    simp [Child.advance, ChildPos.then, hp, Carried, hr, hw, hb, hc]
  | skipClient hp =>
    rw [hp] at h
    simpa [Child.advance, ChildPos.then, hp, Carried] using h
  | writeBackend buf m hp =>
    rw [hp] at h
    obtain ⟨hr, hw, hb, hc⟩ := h
    simp [Child.advance, ChildPos.then, hp, Carried, hr, hw, hb, hc, List.take_prefix]
  | readBackend n hp =>
    rw [hp] at h
    obtain ⟨hw, hb, hc⟩ := h
    simp [Child.advance, ChildPos.then, hp, Carried, hw, hb, hc]
  | skipBackend hp =>
    rw [hp] at h
    simpa [Child.advance, ChildPos.then, hp, Carried] using h
  | writeClient buf m hp =>
    rw [hp] at h
    obtain ⟨hw, hb, hc⟩ := h
    simp [Child.advance, ChildPos.then, hp, Carried, hw, hb, hc, List.take_prefix]
  | mute buf hp =>
    rw [hp] at h
    obtain ⟨hw, hb, hc⟩ := h
    simp [Child.advance, ChildPos.then, hp, Carried, hw, hc]
  | killedBackend buf hp =>
    rw [hp] at h
    obtain ⟨hr, hw, hb, hc⟩ := h
    simp [Child.gone, Carried, hw, hc]
  | killedClient buf hp =>
    rw [hp] at h
    obtain ⟨hw, hb, hc⟩ := h
    simp [Child.gone, Carried, hw, hc]
  | close hp =>
    cases hpos : c.pos <;> simp only [hpos, ChildPos.Closes] at hp h
    all_goals
      simp only [Child.advance, ChildPos.then, hpos]
      exact h
  | exit hp =>
    rw [hp] at h
    exact h

/-- The other parties leave alone what a child has received and sent. -/
theorem Carried.keep {cl cl' : Conn} {p : Option ChildPos} (h : Carried cl p)
    (hr : cl'.fromClient.received = cl.fromClient.received)
    (hw : cl'.toBackend.written = cl.toBackend.written)
    (hb : cl'.fromBackend.received = cl.fromBackend.received)
    (hc : cl'.toClient = cl.toClient) : Carried cl' p := by
  unfold Carried at h ⊢
  rw [hr, hw, hb, hc]
  exact h

theorem Relay.setConn (h : Relay s) {cl : Conn} (hk : ∀ p, Carried (s.conns k) p → Carried cl p) :
    Relay (s.setConn k cl) := by
  intro j
  by_cases hj : j = k
  · subst hj
    simp only [State.setConn, Function.update_self]
    exact hk _ (h j)
  · simp only [State.setConn, Function.update_of_ne hj]
    exact h j

theorem relay_parent (ht : Tables base s) (h : Relay s) {s' : State} (hs : ParentStep s s') :
    Relay s' := by
  cases hs with
  | connected c b fd =>
    exact h.setConn fun _ hc => hc.keep rfl rfl rfl rfl
  | forked c fd hpos =>
    intro k
    by_cases hk : k = s.round
    · subst hk
      have hnone : s.children s.round = none := by
        refine Option.eq_none_iff_forall_not_mem.mpr fun ch hch => ?_
        rcases ht.started _ ch hch with hlt | ⟨-, hf⟩
        · exact absurd hlt (Nat.lt_irrefl _)
        · rw [hpos] at hf
          exact hf
      have hc := h s.round
      rw [hnone] at hc
      simp only [State.setChild, Function.update_self]
      exact hc
    · simp only [State.setChild, Function.update_of_ne hk]
      exact h k
  | report | accept | socket | refused | drop | unforked | closeClient | closeBackend => exact h

theorem relay_child (h : Relay s) {c c' : Child} (hc : c ∈ s.children k) {cl : Conn}
    (hs : ChildStep (s.conns k) c cl c') : Relay ((s.setConn k cl).setChild k c') := by
  intro j
  by_cases hj : j = k
  · subst hj
    have hcarried := h j
    rw [Option.mem_def.mp hc] at hcarried
    simp only [State.setChild, State.setConn, Function.update_self]
    exact hs.carried hcarried
  · simp only [State.setChild, State.setConn, Function.update_of_ne hj]
    exact h j

theorem relay_backend (h : Relay s) {b : Backend} {s' : State} (hs : BackendStep s b s') :
    Relay s' := by
  cases hs with
  | read k n => exact h.setConn fun _ hc => hc.keep rfl (Stream.written_read _ _) rfl rfl
  | write k buf m => exact h.setConn fun _ hc => hc.keep rfl rfl rfl rfl
  | close k => exact h.setConn fun _ hc => hc.keep rfl rfl rfl rfl
  | accept | skip | killed => exact h

theorem relay_next (ht : Tables base s) (h : Relay s) {e : Event} (he : Enabled s e) :
    Relay (next s e) := by
  cases e with
  | parent e => exact relay_parent ht h (parent_step he)
  | child k e =>
    obtain ⟨c, hc, he⟩ := he
    obtain ⟨cl, c', heq, hs⟩ := child_step (ht.child k c hc) he
    simp only [next, Option.mem_def.mp hc, heq]
    exact relay_child h hc hs
  | backend b e => exact relay_backend h (backend_step he)
  | send k bytes => exact h.setConn fun _ hc => hc.keep rfl rfl rfl rfl
  | hangup k => exact h.setConn fun _ hc => hc.keep rfl rfl rfl rfl

end ForkingBalancer
