import LinuxLabs.Execution
import LinuxLabs.Forwarding
import Mathlib.Algebra.GroupWithZero.Nat
import Mathlib.Data.Fin.Basic
import Mathlib.Data.Finset.Basic

/-! # The TCP load balancers (labs 10 and 11)
One waits with level-triggered epoll and one with kqueue; what they do for an event is
the same. `connTable` is `conn_table[0..conn_count)` and goes on where the array's 1024
entries end. `outcomes`, one entry for each accepted client, and `transfers` are history. -/
namespace TcpLoadBalancer

open Execution Forwarding

abbrev Fd := ℕ

abbrev maxBackends : ℕ := 3
abbrev Backend := Fin maxBackends
instance : NeZero maxBackends := ⟨by decide⟩
def bufSize : ℕ := 4096

structure Conn where
  clientFd : Fd
  backendFd : Fd
  deriving DecidableEq

structure State where
  listenFd : Fd
  openFds : Finset Fd
  connTable : List Conn
  currentBackend : Backend
  outcomes : List Bool
  transfers : List (Transfer Fd UInt8)

def initial (listenFd : Fd) (reserved : Finset Fd) : State :=
  ⟨listenFd, insert listenFd reserved, [], 0, [], []⟩

/-- How `socket` and `connect` end; a connection in progress counts as connected. -/
inductive ConnectResult where
  | noSocket
  | refused
  | connected
  deriving DecidableEq

inductive ReadResult where
  | data (bytes : List UInt8)
  | wouldBlock
  | ended
  deriving DecidableEq

/-- The descriptor `connect_backend` returns, `socket` having returned `fd`. -/
def connectBackend (fd : Fd) : ConnectResult → Option Fd
  | .connected => some fd
  | .noSocket | .refused => none

/-- The lookup loop: it runs to the end of the table and keeps the last match. -/
def pairedFd (table : List Conn) (fd : Fd) : Option Fd :=
  table.foldl (fun found c =>
    if c.clientFd = fd then some c.backendFd
    else if c.backendFd = fd then some c.clientFd
    else found) none

/-- `forward_data`; what `write` returns is not looked at. -/
def forwardData (s : State) (src dst : Fd) (r : ReadResult) (accepted : ℕ) : State :=
  match r with
  | .data bytes => { s with transfers := s.transfers ++ [⟨src, dst, bytes, accepted⟩] }
  | .wouldBlock | .ended => s

/-- `ready` carries what `read` returns and how many bytes `write` accepts, 0 if it fails. -/
inductive Event where
  | accept (cfd bfd : Fd) (r : ConnectResult)
  | acceptFailed
  | ready (fd : Fd) (r : ReadResult) (accepted : ℕ)
  deriving DecidableEq

def Enabled (s : State) : Event → Prop
  | .accept cfd bfd r => cfd ∉ s.openFds ∧ (r ≠ .noSocket → bfd ∉ s.openFds ∧ bfd ≠ cfd)
  | .acceptFailed => True
  | .ready fd r accepted => fd ≠ s.listenFd ∧
    match r with
    | .data bytes => bytes ≠ [] ∧ bytes.length ≤ bufSize ∧ accepted ≤ bytes.length
    | .wouldBlock | .ended => True

/-- A client without a backend is closed again, and so is a socket that did not connect. -/
def next (s : State) : Event → State
  | .accept cfd bfd r =>
    match connectBackend bfd r with
    | none => { s with outcomes := s.outcomes ++ [false] }
    | some bfd =>
      { s with
        openFds := insert bfd (insert cfd s.openFds)
        connTable := s.connTable ++ [⟨cfd, bfd⟩]
        currentBackend := s.currentBackend + 1
        outcomes := s.outcomes ++ [true] }
  | .acceptFailed => s
  | .ready fd r accepted =>
    match pairedFd s.connTable fd with
    | none => s
    | some dst => forwardData s fd dst r accepted

def machine (listenFd : Fd) (reserved : Finset Fd) : Machine State Event :=
  ⟨initial listenFd reserved, Enabled, next⟩

instance (s : State) (e : Event) : Decidable (Enabled s e) := by
  cases e <;> simp only [Enabled]
  case ready fd r accepted => cases r <;> infer_instance
  all_goals infer_instance

instance (listenFd : Fd) (reserved : Finset Fd) (s : State) (e : Event) :
    Decidable ((machine listenFd reserved).Enabled s e) := inferInstanceAs (Decidable (Enabled s e))

/-! ## The lookup on a table without repetitions -/

/-- The two columns of the table as one list. -/
def endpoints (table : List Conn) : List Fd := table.flatMap fun c => [c.clientFd, c.backendFd]

/-- The two ends of a pair, in either order. -/
def Conn.Links (c : Conn) (a b : Fd) : Prop :=
  a = c.clientFd ∧ b = c.backendFd ∨ a = c.backendFd ∧ b = c.clientFd

theorem Conn.Links.symm {c : Conn} {a b : Fd} (h : c.Links a b) : c.Links b a :=
  Or.symm (h.imp And.symm And.symm)

theorem Conn.Links.mem {c : Conn} {a b : Fd} (h : c.Links a b) {table : List Conn}
    (hc : c ∈ table) : a ∈ endpoints table := by
  refine List.mem_flatMap.mpr ⟨c, hc, ?_⟩
  rcases h with ⟨rfl, _⟩ | ⟨rfl, _⟩ <;> simp

theorem pairedFd_concat (table : List Conn) (c : Conn) (fd : Fd) :
    pairedFd (table ++ [c]) fd =
      if c.clientFd = fd then some c.backendFd
      else if c.backendFd = fd then some c.clientFd
      else pairedFd table fd := by
  rw [pairedFd, List.foldl_append]
  rfl

theorem endpoints_concat (table : List Conn) (c : Conn) :
    endpoints (table ++ [c]) = endpoints table ++ [c.clientFd, c.backendFd] := by
  simp [endpoints]

/-- The last match is the only one. -/
theorem pairedFd_eq_some {table : List Conn} (h : (endpoints table).Nodup) {fd p : Fd} :
    pairedFd table fd = some p ↔ ∃ c ∈ table, c.Links fd p := by
  induction table using List.reverseRecOn with
  | nil => simp [pairedFd]
  | append_singleton table c ih =>
    rw [endpoints_concat, List.nodup_append] at h
    obtain ⟨htable, hc, hdisj⟩ := h
    have hne : c.clientFd ≠ c.backendFd := by simpa using hc
    have hold {a b : Fd} {d : Conn} (hd : d ∈ table) (hl : d.Links a b) :
        a ≠ c.clientFd ∧ a ≠ c.backendFd :=
      ⟨fun ha => hdisj a (hl.mem hd) c.clientFd (by simp) ha,
        fun ha => hdisj a (hl.mem hd) c.backendFd (by simp) ha⟩
    rw [pairedFd_concat]
    constructor
    · intro hp
      split at hp
      · next hf => exact ⟨c, by simp, Or.inl ⟨hf.symm, (Option.some.inj hp).symm⟩⟩
      · split at hp
        · next hf => exact ⟨c, by simp, Or.inr ⟨hf.symm, (Option.some.inj hp).symm⟩⟩
        · obtain ⟨d, hd, hl⟩ := (ih htable).mp hp
          exact ⟨d, List.mem_append_left _ hd, hl⟩
    · rintro ⟨d, hd, hl⟩
      rcases List.mem_append.mp hd with hd | hd
      · obtain ⟨hcf, hbf⟩ := hold hd hl
        rw [if_neg hcf.symm, if_neg hbf.symm]
        exact (ih htable).mpr ⟨d, hd, hl⟩
      · obtain rfl := List.mem_singleton.mp hd
        rcases hl with ⟨rfl, rfl⟩ | ⟨rfl, rfl⟩
        · rw [if_pos rfl]
        · rw [if_neg hne, if_pos rfl]

theorem ends_ne {table : List Conn} (h : (endpoints table).Nodup) {c : Conn} (hc : c ∈ table) :
    c.clientFd ≠ c.backendFd := by
  have := (List.nodup_flatMap.mp h).1 c hc
  simpa using this

/-! ## Every run: a recorded descriptor is never handed out again -/

structure Invariant (s : State) : Prop where
  distinct : (endpoints s.connTable).Nodup
  opened : ∀ fd ∈ endpoints s.connTable, fd ∈ s.openFds ∧ fd ≠ s.listenFd
  listening : s.listenFd ∈ s.openFds
  linked : ∀ t ∈ s.transfers, ∃ c ∈ s.connTable, c.Links t.source t.dest

theorem initial_invariant (listenFd : Fd) (reserved : Finset Fd) :
    Invariant (initial listenFd reserved) :=
  ⟨List.nodup_nil, by simp [initial, endpoints], Finset.mem_insert_self _ _, by simp [initial]⟩

theorem Invariant.paired {s : State} (h : Invariant s) {cfd bfd : Fd} (hc : cfd ∉ s.openFds)
    (hb : bfd ∉ s.openFds) (hne : bfd ≠ cfd) :
    Invariant (next s (.accept cfd bfd .connected)) := by
  have hfresh : ∀ fd ∈ endpoints s.connTable, fd ≠ cfd ∧ fd ≠ bfd := fun fd hf =>
    ⟨fun heq => hc (heq ▸ (h.opened fd hf).1), fun heq => hb (heq ▸ (h.opened fd hf).1)⟩
  simp only [next, connectBackend]
  constructor
  · rw [endpoints_concat, List.nodup_append]
    refine ⟨h.distinct, by simpa using hne.symm, fun a ha b hm => ?_⟩
    obtain ⟨hac, hab⟩ := hfresh a ha
    simp only [List.mem_cons, List.not_mem_nil, or_false] at hm
    rcases hm with rfl | rfl
    · exact hac
    · exact hab
  · intro fd hf
    rw [endpoints_concat, List.mem_append] at hf
    simp only [Finset.mem_insert]
    rcases hf with hf | hf
    · obtain ⟨ho, hl⟩ := h.opened fd hf
      exact ⟨Or.inr (Or.inr ho), hl⟩
    · simp only [List.mem_cons, List.not_mem_nil, or_false] at hf
      rcases hf with rfl | rfl
      · exact ⟨Or.inr (Or.inl rfl), fun heq => hc (heq ▸ h.listening)⟩
      · exact ⟨Or.inl rfl, fun heq => hb (heq ▸ h.listening)⟩
  · exact Finset.mem_insert_of_mem (Finset.mem_insert_of_mem h.listening)
  · intro t ht
    obtain ⟨c, hc, hl⟩ := h.linked t ht
    exact ⟨c, List.mem_append_left _ hc, hl⟩

theorem step_invariant {s : State} (h : Invariant s) {e : Event} (he : Enabled s e) :
    Invariant (next s e) := by
  cases e with
  | accept cfd bfd r =>
    obtain ⟨hc, hb⟩ := he
    cases r with
    | connected =>
      obtain ⟨hb, hne⟩ := hb (by simp)
      exact h.paired hc hb hne
    | noSocket | refused => exact ⟨h.distinct, h.opened, h.listening, h.linked⟩
  | acceptFailed => exact h
  | ready fd r accepted =>
    simp only [next]
    split
    · exact h
    · next dst hp =>
      cases r with
      | data bytes =>
        refine ⟨h.distinct, h.opened, h.listening, fun t ht => ?_⟩
        rcases List.mem_append.mp ht with ht | ht
        · exact h.linked t ht
        · obtain rfl := List.mem_singleton.mp ht
          exact (pairedFd_eq_some h.distinct).mp hp
      | wouldBlock | ended => exact h

theorem run_invariant {listenFd : Fd} {reserved : Finset Fd} {es : List Event}
    (h : (machine listenFd reserved).Valid es) : Invariant ((machine listenFd reserved).run es) :=
  Machine.invariant (I := Invariant) (initial_invariant listenFd reserved)
    (fun _ _ hs he => step_invariant hs he) h

/-- Whatever connects or fails to connect and in whatever order descriptors get ready: no
descriptor is recorded twice, the lookup leads from each to the other end of its own pair
and back, and what is written to a descriptor was read from that other end. -/
theorem pairs_isolated (listenFd : Fd) (reserved : Finset Fd) (es : List Event)
    (h : (machine listenFd reserved).Valid es) :
    let s := (machine listenFd reserved).run es
    (endpoints s.connTable).Nodup ∧
    (∀ c ∈ s.connTable, pairedFd s.connTable c.clientFd = some c.backendFd ∧
      pairedFd s.connTable c.backendFd = some c.clientFd) ∧
    (∀ fd p, pairedFd s.connTable fd = some p →
      pairedFd s.connTable p = some fd ∧ p ≠ fd ∧ p ≠ s.listenFd) ∧
    ∀ t ∈ s.transfers, pairedFd s.connTable t.dest = some t.source := by
  intro s
  have hi : Invariant s := run_invariant h
  refine ⟨hi.distinct, fun c hc => ⟨?_, ?_⟩, fun fd p hp => ?_, fun t ht => ?_⟩
  · exact (pairedFd_eq_some hi.distinct).mpr ⟨c, hc, Or.inl ⟨rfl, rfl⟩⟩
  · exact (pairedFd_eq_some hi.distinct).mpr ⟨c, hc, Or.inr ⟨rfl, rfl⟩⟩
  · obtain ⟨c, hc, hl⟩ := (pairedFd_eq_some hi.distinct).mp hp
    refine ⟨(pairedFd_eq_some hi.distinct).mpr ⟨c, hc, hl.symm⟩, ?_, ?_⟩
    · have hne := ends_ne hi.distinct hc
      rcases hl with ⟨rfl, rfl⟩ | ⟨rfl, rfl⟩
      · exact hne.symm
      · exact hne
    · exact (hi.opened p (hl.symm.mem hc)).2
  · obtain ⟨c, hc, hl⟩ := hi.linked t ht
    exact (pairedFd_eq_some hi.distinct).mpr ⟨c, hc, hl.symm⟩

/-- The backend of the second client refuses, and a third client gets the same numbers. -/
theorem pairs_isolated_recycled :
    let es : List Event := [.accept 5 6 .connected, .accept 7 8 .refused, .accept 7 8 .connected,
      .ready 8 (.data [104, 105]) 1, .ready 5 (.data [10]) 1]
    let s := (machine 3 {0, 1, 2, 4}).run es
    s.connTable = [⟨5, 6⟩, ⟨7, 8⟩] ∧
    ((endpoints s.connTable).Nodup ∧
    (∀ c ∈ s.connTable, pairedFd s.connTable c.clientFd = some c.backendFd ∧
      pairedFd s.connTable c.backendFd = some c.clientFd) ∧
    (∀ fd p, pairedFd s.connTable fd = some p →
      pairedFd s.connTable p = some fd ∧ p ≠ fd ∧ p ≠ s.listenFd) ∧
    ∀ t ∈ s.transfers, pairedFd s.connTable t.dest = some t.source) := by
  exact ⟨by decide, pairs_isolated 3 {0, 1, 2, 4} _ (by decide)⟩

end TcpLoadBalancer
