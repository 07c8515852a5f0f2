import LinuxLabs.Execution
import LinuxLabs.CString
import Mathlib.Data.Fintype.Card
import Mathlib.Data.Fin.Basic
import Mathlib.Data.List.FinRange

/-! # The logger on `select` (lab 05)
A round is a `select`, an `accept` if the listener is ready, and a scan of the table. A slot of 0 is
free. A client that finds no free slot stays connected and is never looked at again. -/
namespace SelectLogger

open Execution
open CString (Byte)

abbrev maxClients : ℕ := 30
def bufSize : ℕ := 1024

abbrev Slot := Fin maxClients

/-- Where `main` is in its round. -/
inductive Phase where
  | selecting
  | accepting
  | scanning (i : Slot)
  deriving DecidableEq

/-- `connections` are the accepted descriptors that are open, and `reported` those that `select` has
found ready; `readfds` is what the program takes for that. -/
structure State where
  clients : Slot → ℕ
  connections : Finset ℕ
  readfds : Finset ℕ
  reported : Finset ℕ
  phase : Phase

/-- `recv []` is a result of 0 or -1; `skip` is a slot that is not set in `readfds`. -/
inductive Event where
  | select (ready : Finset ℕ)
  | selectFailed
  | interrupted
  | accept (fd : ℕ)
  | acceptFailed
  | recv (bytes : List Byte)
  | skip
  deriving DecidableEq

/-- The log file has taken the lowest descriptor there was, so 0 is in use before the loop. -/
structure Kernel where
  serverFd : ℕ
  reserved : Finset ℕ
  server : serverFd ∈ reserved
  zero : 0 ∈ reserved
  ne : serverFd ≠ 0

/-- The descriptors that are set before `select`. -/
def watched (k : Kernel) (s : State) : Finset ℕ :=
  insert k.serverFd (((List.finRange maxClients).map s.clients).filter (· ≠ 0)).toFinset

def freeSlot (clients : Slot → ℕ) : Option Slot :=
  (List.finRange maxClients).find? fun i => clients i = 0

/-- The loop after `accept`, which may end without a store. -/
def insertClient (clients : Slot → ℕ) (fd : ℕ) : Slot → ℕ :=
  match freeSlot clients with
  | none => clients
  | some i => Function.update clients i fd

/-- The next slot, or the next round. -/
def advance (i : Slot) : Phase :=
  if h : i.val + 1 < maxClients then .scanning ⟨i.val + 1, h⟩ else .selecting

/-- `if (FD_ISSET(server_fd, &readfds))`. -/
def afterSelect (k : Kernel) (readfds : Finset ℕ) : Phase :=
  if k.serverFd ∈ readfds then .accepting else .scanning 0

def next (k : Kernel) (s : State) : Event → State
  | .select ready =>
    { s with readfds := ready, reported := ready, phase := afterSelect k ready }
  | .selectFailed => s
  | .interrupted =>
    -- `select` leaves the set as it was, and the round goes on
    { s with
      readfds := watched k s
      reported := ∅
      phase := afterSelect k (watched k s) }
  | .accept fd =>
    { s with
      clients := insertClient s.clients fd
      connections := insert fd s.connections
      phase := .scanning 0 }
  | .acceptFailed => { s with phase := .selecting }
  | .recv bytes =>
    match s.phase with
    | .scanning i =>
      if bytes = [] then
        { s with
          clients := Function.update s.clients i 0
          connections := s.connections.erase (s.clients i)
          phase := advance i }
      else { s with phase := advance i }
    | _ => s
  | .skip =>
    match s.phase with
    | .scanning i => { s with phase := advance i }
    | _ => s

def Enabled (k : Kernel) (s : State) : Event → Prop
  | .select ready => s.phase = .selecting ∧ ready.Nonempty ∧ ready ⊆ watched k s
  | .selectFailed | .interrupted => s.phase = .selecting
  | .accept fd => s.phase = .accepting ∧ fd ∉ k.reserved ∧ fd ∉ s.connections
  | .acceptFailed => s.phase = .accepting
  | .recv bytes => (∃ i, s.phase = .scanning i ∧ s.clients i ∈ s.readfds) ∧
    bytes.length ≤ bufSize - 1
  | .skip => ∃ i, s.phase = .scanning i ∧ s.clients i ∉ s.readfds

def initial : State := ⟨fun _ => 0, ∅, ∅, ∅, .selecting⟩

def machine (k : Kernel) : Machine State Event := ⟨initial, Enabled k, next k⟩

/-- The non-zero entries are distinct, and they are the connections. -/
structure TableExact (s : State) : Prop where
  distinct : ∀ i j, s.clients i ≠ 0 → s.clients i = s.clients j → i = j
  exact : ∀ fd, (∃ i, s.clients i = fd) ∧ fd ≠ 0 ↔ fd ∈ s.connections

/-- Only a descriptor that was reported is read. -/
def RecvReported (s : State) : Event → Prop
  | .recv _ => ∀ i, s.phase = .scanning i → s.clients i ∈ s.reported
  | _ => True

structure Right (k : Kernel) (s : State) (e : Event) : Prop where
  recv : RecvReported s e
  table : (next k s e).phase = .selecting → TableExact (next k s e)

/-- A client comes only while there is a free slot, and a round that reads has not been interrupted
in `select`. -/
def Serves (s : State) : Event → Prop
  | .accept _ => freeSlot s.clients ≠ none
  | .recv _ => s.readfds = s.reported
  | _ => True

instance (k : Kernel) (s : State) (e : Event) : Decidable ((machine k).Enabled s e) := by
  cases e <;> simp only [machine, Enabled] <;> infer_instance

instance (s : State) (e : Event) : Decidable (Serves s e) := by
  cases e <;> simp only [Serves] <;> infer_instance

/-! ## What holds before every step -/

structure Invariant (k : Kernel) (s : State) : Prop where
  table : TableExact s
  fresh : ∀ fd ∈ s.connections, fd ∉ k.reserved
  zero : 0 ∉ s.readfds
  sets : s.readfds = s.reported ∨ s.reported = ∅

variable {k : Kernel} {s : State} {e : Event} {fd : ℕ} {i : Slot}

theorem mem_watched : fd ∈ watched k s ↔ fd = k.serverFd ∨ (∃ i, s.clients i = fd) ∧ fd ≠ 0 := by
  simp [watched]

theorem zero_not_watched : 0 ∉ watched k s := by
  rw [mem_watched]
  rintro (h | ⟨-, h⟩)
  · exact k.ne h.symm
  · exact h rfl

theorem freeSlot_zero {clients : Slot → ℕ} (h : freeSlot clients = some i) : clients i = 0 := by
  have hi := List.find?_some h
  simpa using hi

/-- The new number is in no other slot. -/
theorem TableExact.insert (h : TableExact s) (hi : s.clients i = 0) (hne : fd ≠ 0)
    (hnew : fd ∉ s.connections) {phase : Phase} :
    TableExact { s with
      clients := Function.update s.clients i fd
      connections := insert fd s.connections
      phase := phase } := by
  have hnone : ∀ j, s.clients j ≠ fd := fun j hj => hnew ((h.exact fd).mp ⟨⟨j, hj⟩, hne⟩)
  constructor
  · intro a b ha hab
    dsimp only at ha hab
    by_cases hai : a = i <;> by_cases hbi : b = i
    · rw [hai, hbi]
    · rw [hai, Function.update_self, Function.update_of_ne hbi] at hab
      exact absurd hab.symm (hnone b)
    · rw [hbi, Function.update_self, Function.update_of_ne hai] at hab
      exact absurd hab (hnone a)
    · rw [Function.update_of_ne hai] at ha hab
      rw [Function.update_of_ne hbi] at hab
      exact h.distinct a b ha hab
  · intro x
    dsimp only
    rw [Finset.mem_insert, ← h.exact x]
    constructor
    · rintro ⟨⟨j, hj⟩, hx⟩
      by_cases hji : j = i
      · rw [hji, Function.update_self] at hj
        exact Or.inl hj.symm
      · rw [Function.update_of_ne hji] at hj
        exact Or.inr ⟨⟨j, hj⟩, hx⟩
    · rintro (rfl | ⟨⟨j, hj⟩, hx⟩)
      · exact ⟨⟨i, Function.update_self ..⟩, hne⟩
      · have hji : j ≠ i := fun heq => hx (by rw [← hj, heq, hi])
        exact ⟨⟨j, by rw [Function.update_of_ne hji, hj]⟩, hx⟩

/-- A freed slot was the only one with its number. -/
theorem TableExact.free (h : TableExact s) (i : Slot) (phase : Phase) :
    TableExact { s with
      clients := Function.update s.clients i 0
      connections := s.connections.erase (s.clients i)
      phase := phase } := by
  constructor
  · intro a b ha hab
    dsimp only at ha hab
    have hai : a ≠ i := fun heq => ha (by rw [heq, Function.update_self])
    rw [Function.update_of_ne hai] at ha hab
    by_cases hbi : b = i
    · rw [hbi, Function.update_self] at hab
      exact absurd hab ha
    · rw [Function.update_of_ne hbi] at hab
      exact h.distinct a b ha hab
  · intro x
    dsimp only
    rw [Finset.mem_erase, ← h.exact x]
    constructor
    · rintro ⟨⟨j, hj⟩, hx⟩
      have hji : j ≠ i := fun heq => hx (by rw [← hj, heq, Function.update_self])
      rw [Function.update_of_ne hji] at hj
      refine ⟨fun heq => hji ?_, ⟨j, hj⟩, hx⟩
      exact h.distinct j i (by rw [hj]; exact hx) (by rw [hj, heq])
    · rintro ⟨hne, ⟨j, hj⟩, hx⟩
      have hji : j ≠ i := fun heq => hne (by rw [← hj, heq])
      exact ⟨⟨j, by rw [Function.update_of_ne hji, hj]⟩, hx⟩

theorem invariant_initial : Invariant k initial :=
  ⟨⟨fun _ _ h => absurd rfl h, fun fd => by simp [initial, eq_comm]⟩, by simp [initial],
    by simp [initial], Or.inl rfl⟩

theorem invariant_accept (h : Invariant k s) (he : Enabled k s (.accept fd))
    (hs : Serves s (.accept fd)) : Invariant k (next k s (.accept fd)) := by
  obtain ⟨-, hfresh, hnew⟩ := he
  obtain ⟨i, hi⟩ := Option.ne_none_iff_exists'.mp hs
  have hne : fd ≠ 0 := fun heq => hfresh (heq ▸ k.zero)
  have hnext : next k s (.accept fd) =
      { s with
        clients := Function.update s.clients i fd
        connections := insert fd s.connections
        phase := .scanning 0 } := by
    simp only [next, insertClient, hi]
  rw [hnext]
  refine ⟨h.table.insert (freeSlot_zero hi) hne hnew, fun x hx => ?_, h.zero, h.sets⟩
  rcases Finset.mem_insert.mp hx with rfl | hx
  · exact hfresh
  · exact h.fresh x hx

theorem invariant_recv (h : Invariant k s) {bytes : List Byte} (he : Enabled k s (.recv bytes)) :
    Invariant k (next k s (.recv bytes)) := by
  obtain ⟨⟨i, hphase, -⟩, -⟩ := he
  simp only [next, hphase]
  split
  · exact ⟨h.table.free i _, fun x hx => h.fresh x (Finset.mem_of_mem_erase hx), h.zero, h.sets⟩
  · exact ⟨⟨h.table.distinct, h.table.exact⟩, h.fresh, h.zero, h.sets⟩

theorem invariant_next (h : Invariant k s) (he : Enabled k s e) (hs : Serves s e) :
    Invariant k (next k s e) := by
  have htable : ∀ phase readfds reported, TableExact ⟨s.clients, s.connections, readfds, reported,
      phase⟩ := fun _ _ _ => ⟨h.table.distinct, h.table.exact⟩
  cases e with
  | select ready =>
    exact ⟨htable .., h.fresh, fun hz => zero_not_watched (he.2.2 hz), Or.inl rfl⟩
  | selectFailed => exact h
  | interrupted => exact ⟨htable .., h.fresh, zero_not_watched, Or.inr rfl⟩
  | accept fd => exact invariant_accept h he hs
  | acceptFailed => exact ⟨htable .., h.fresh, h.zero, h.sets⟩
  | recv bytes => exact invariant_recv h he
  | skip =>
    obtain ⟨i, hphase, -⟩ := he
    simp only [next, hphase]
    exact ⟨htable .., h.fresh, h.zero, h.sets⟩

theorem right_of_serves (h : Invariant k s) (he : Enabled k s e) (hs : Serves s e) :
    Right k s e := by
  refine ⟨?_, fun _ => (invariant_next h he hs).table⟩
  cases e with
  | recv bytes =>
    intro i hi
    obtain ⟨⟨j, hj, hset⟩, -⟩ := he
    rw [hi] at hj
    cases hj
    have heq : s.readfds = s.reported := hs
    rwa [← heq]
  | _ => trivial

/-! ## A client that found no slot -/

/-- It is connected and in no slot, and the round goes on. -/
def Lost (s : State) : Prop :=
  (∃ i, s.phase = .scanning i) ∧ ∃ fd ∈ s.connections, fd ≠ 0 ∧ ∀ i, s.clients i ≠ fd

theorem lost_of_not_serves (h : Invariant k s) (he : Enabled k s e) (hr : Right k s e)
    (hn : ¬ Serves s e) : Lost (next k s e) := by
  cases e with
  | accept fd =>
    obtain ⟨-, hfresh, hnew⟩ := he
    have hne : fd ≠ 0 := fun heq => hfresh (heq ▸ k.zero)
    have hfull : freeSlot s.clients = none := not_not.mp hn
    refine ⟨⟨0, rfl⟩, fd, Finset.mem_insert_self .., hne, fun j hj => ?_⟩
    simp only [next, insertClient, hfull] at hj
    exact hnew ((h.table.exact fd).mp ⟨⟨j, hj⟩, hne⟩)
  | recv bytes =>
    obtain ⟨⟨i, hphase, -⟩, -⟩ := he
    have hreported := hr.recv i hphase
    rw [h.sets.resolve_left hn] at hreported
    cases hreported
  | select | selectFailed | interrupted | acceptFailed | skip => exact absurd trivial hn

/-- It stays lost: at the end of the round the table would not be right. -/
theorem lost_next (h : Lost s) (he : Enabled k s e) (hr : Right k s e) : Lost (next k s e) := by
  obtain ⟨⟨i, hphase⟩, fd, hfd, hne, hnone⟩ := h
  have hgoes : (next k s e).phase = advance i ∧ fd ∈ (next k s e).connections ∧
      ∀ j, (next k s e).clients j ≠ fd := by
    cases e with
    | select | selectFailed | interrupted | accept | acceptFailed => simp [Enabled, hphase] at he
    | recv bytes =>
      simp only [next, hphase]
      split
      · refine ⟨rfl, Finset.mem_erase.mpr ⟨(hnone i).symm, hfd⟩, fun j => ?_⟩
        dsimp only
        by_cases hj : j = i
        · rw [hj, Function.update_self]
          exact hne.symm
        · rw [Function.update_of_ne hj]
          exact hnone j
      · exact ⟨rfl, hfd, hnone⟩
    | skip =>
      simp only [next, hphase]
      exact ⟨trivial, hfd, hnone⟩
  obtain ⟨hnext, hin, hout⟩ := hgoes
  refine ⟨?_, fd, hin, hne, hout⟩
  by_cases hlast : i.val + 1 < maxClients
  · exact ⟨⟨i.val + 1, hlast⟩, by rw [hnext, advance, dif_pos hlast]⟩
  · have hselect : (next k s e).phase = .selecting := by rw [hnext, advance, dif_neg hlast]
    obtain ⟨⟨j, hj⟩, -⟩ := ((hr.table hselect).exact fd).mpr hin
    exact absurd hj (hout j)

theorem serves_or_lost {es : List Event} (h : (machine k).Valid es)
    (hr : (machine k).Along (Right k) es) :
    (machine k).Along Serves es ∨ Lost ((machine k).run es) := by
  induction es using List.reverseRecOn with
  | nil => exact Or.inl trivial
  | append_singleton es e ih =>
    obtain ⟨hv, he⟩ := (Machine.valid_concat es e).mp h
    obtain ⟨hr, hre⟩ := (Machine.along_concat es e).mp hr
    rw [Machine.along_concat, Machine.run_concat]
    rcases ih hv hr with hs | hlost
    · by_cases hse : Serves ((machine k).run es) e
      · exact Or.inl ⟨hs, hse⟩
      · have hinv := Machine.invariant_along invariant_initial (fun _ _ => invariant_next) hv hs
        exact Or.inr (lost_of_not_serves hinv he hre hse)
    · exact Or.inr (lost_next hlost he hre)

/-- While every client that comes finds a slot and no interrupted round reads, the table is exact at
each `select` and only reported descriptors are read; and in a run that has come to a `select` this
is so in no other case. -/
theorem logger_right_iff (k : Kernel) (es : List Event) (h : (machine k).Valid es) :
    ((machine k).Along Serves es → (machine k).Along (Right k) es) ∧
    (((machine k).run es).phase = .selecting →
      ((machine k).Along (Right k) es ↔ (machine k).Along Serves es)) := by
  have hright : (machine k).Along Serves es → (machine k).Along (Right k) es := fun hs => by
    have hboth := (Machine.along_iff_of_invariant (D := fun s e => Serves s e ∧ Right k s e)
      invariant_initial (fun _ _ => invariant_next)
      (fun s e hi he => ⟨And.left, fun hs => ⟨hs, right_of_serves hi he hs⟩⟩) h).mpr hs
    exact hboth.imp fun _ _ hse => hse.2
  refine ⟨hright, fun hend => ⟨fun hr => ?_, hright⟩⟩
  refine (serves_or_lost h hr).resolve_right ?_
  rintro ⟨⟨i, hphase⟩, -⟩
  rw [hend] at hphase
  cases hphase

/-! ## Clients that stay -/

/-- A round in which a client comes and none is ready. -/
def coming (k : Kernel) (fd : ℕ) : List Event :=
  [.select {k.serverFd}, .accept fd] ++ List.replicate maxClients .skip

theorem skips {m : ℕ} (hm : i.val + m = maxClients) (hphase : s.phase = .scanning i)
    (hclear : ∀ j, s.clients j ∉ s.readfds) :
    (machine k).AlongFrom (Enabled k) s (List.replicate m .skip) ∧
      (machine k).runFrom s (List.replicate m .skip) = { s with phase := .selecting } := by
  induction m generalizing s i with
  | zero =>
    have := i.isLt
    omega
  | succ m ih =>
    have hnext : (machine k).next s .skip = { s with phase := advance i } := by
      simp only [machine, next, hphase]
    have henabled : Enabled k s .skip := ⟨i, hphase, hclear i⟩
    rw [List.replicate_succ, Machine.alongFrom_cons, Machine.runFrom_cons, hnext]
    by_cases hlast : i.val + 1 < maxClients
    · obtain ⟨hrest, hrun⟩ := ih (i := ⟨i.val + 1, hlast⟩) (s := { s with phase := advance i })
        (by dsimp only; omega) (dif_pos hlast) hclear
      exact ⟨⟨henabled, hrest⟩, hrun⟩
    · obtain rfl : m = 0 := by omega
      rw [advance, dif_neg hlast]
      exact ⟨⟨henabled, trivial⟩, rfl⟩

theorem coming_run (k : Kernel) (fd : ℕ) (hphase : s.phase = .selecting) (hfresh : fd ∉ k.reserved)
    (hnew : fd ∉ s.connections) (hclear : ∀ j, insertClient s.clients fd j ≠ k.serverFd) :
    (machine k).AlongFrom (Enabled k) s (coming k fd) ∧
      (machine k).runFrom s (coming k fd) =
        ⟨insertClient s.clients fd, insert fd s.connections, {k.serverFd}, {k.serverFd},
          .selecting⟩ := by
  have hafter : afterSelect k {k.serverFd} = .accepting := if_pos (Finset.mem_singleton_self _)
  have hselect : Enabled k s (.select {k.serverFd}) := by
    refine ⟨hphase, Finset.singleton_nonempty _, ?_⟩
    rw [Finset.singleton_subset_iff, mem_watched]
    exact Or.inl rfl
  have haccept : Enabled k (next k s (.select {k.serverFd})) (.accept fd) :=
    ⟨hafter, hfresh, hnew⟩
  have hscan : ∀ j, (next k (next k s (.select {k.serverFd})) (.accept fd)).clients j ∉
      (next k (next k s (.select {k.serverFd})) (.accept fd)).readfds := fun j => by
    simpa [next] using hclear j
  obtain ⟨hskips, hrun⟩ := skips (k := k) (i := 0) (m := maxClients) rfl rfl hscan
  have hcons : coming k fd =
      .select {k.serverFd} :: .accept fd :: List.replicate maxClients .skip := rfl
  rw [hcons, Machine.alongFrom_cons, Machine.alongFrom_cons, Machine.runFrom_cons,
    Machine.runFrom_cons]
  exact ⟨⟨hselect, haccept, hskips⟩, hrun⟩

def kernel : Kernel := ⟨4, {0, 1, 2, 3, 4}, by decide, by decide, by decide⟩

/-- A message and a hangup in the first slot, while the next client takes the descriptor again. -/
theorem logger_right_reuse : (machine kernel).Along (Right kernel)
    (coming kernel 5 ++ [.select {5}, .recv [104, 105]] ++ List.replicate 29 .skip ++
      [.select {5}, .recv []] ++ List.replicate 29 .skip ++ coming kernel 5) :=
  (logger_right_iff kernel _ (by decide +kernel)).1 (by decide +kernel)

def crowd (n : ℕ) : List Event := (List.range n).flatMap fun i => coming kernel (5 + i)

theorem crowd_run (n : ℕ) : (machine kernel).Valid (crowd n) ∧
    ((machine kernel).run (crowd n)).phase = .selecting ∧
    (∀ j, ((machine kernel).run (crowd n)).clients j ≠ 4) ∧
    ((machine kernel).run (crowd n)).connections = (Finset.range n).image (5 + ·) := by
  induction n with
  | zero => exact ⟨trivial, rfl, by decide, rfl⟩
  | succ n ih =>
    obtain ⟨hv, hphase, hclear, hconn⟩ := ih
    have hsucc : crowd (n + 1) = crowd n ++ coming kernel (5 + n) := by
      simp [crowd, List.range_succ]
    have hslots : ∀ j, insertClient ((machine kernel).run (crowd n)).clients (5 + n) j ≠ 4 := by
      intro j
      cases hfree : freeSlot ((machine kernel).run (crowd n)).clients with
      | none =>
        simp only [insertClient, hfree]
        exact hclear j
      | some i =>
        simp only [insertClient, hfree]
        by_cases hj : j = i
        · rw [hj, Function.update_self]
          omega
        · rw [Function.update_of_ne hj]
          exact hclear j
    have hfresh : 5 + n ∉ kernel.reserved := by
      simp [kernel]
      omega
    obtain ⟨hround, hrun⟩ := coming_run kernel (5 + n) hphase hfresh (by rw [hconn]; simp) hslots
    rw [hsucc, Machine.run_append, hrun]
    refine ⟨(Machine.along_append _ _).mpr ⟨hv, hround⟩, rfl, hslots, ?_⟩
    dsimp only
    rw [hconn, Finset.range_add_one, Finset.image_insert]

/-- As many numbers as there are clients are in the slots. -/
theorem crowd_right_le {n : ℕ} (hr : (machine kernel).Along (Right kernel) (crowd n)) :
    n ≤ maxClients := by
  obtain ⟨-, hphase, -, hconn⟩ := crowd_run n
  have htable : TableExact ((machine kernel).run (crowd n)) :=
    Machine.reached_run (P := fun s => s.phase = .selecting → TableExact s)
      (fun _ => (invariant_initial (k := kernel)).table) (hr.imp fun _ _ h => h.table) hphase
  have hsub : (Finset.range n).image (5 + ·) ⊆
      Finset.univ.image ((machine kernel).run (crowd n)).clients := by
    intro fd hfd
    rw [← hconn] at hfd
    obtain ⟨⟨j, hj⟩, -⟩ := (htable.exact fd).mpr hfd
    exact Finset.mem_image.mpr ⟨j, Finset.mem_univ j, hj⟩
  have hcard := (Finset.card_le_card hsub).trans Finset.card_image_le
  rwa [Finset.card_image_of_injective _ fun _ _ h => Nat.add_left_cancel h, Finset.card_range,
    Finset.card_univ, Fintype.card_fin] at hcard

/-- There is no slot for the 31st. -/
theorem crowd_not_right : (machine kernel).Valid (crowd 31) ∧
    ¬ (machine kernel).Along (Right kernel) (crowd 31) :=
  ⟨(crowd_run 31).1, fun hr => absurd (crowd_right_le hr) (by decide)⟩

end SelectLogger
