import LinuxLabs.Execution
import LinuxLabs.CString
import Mathlib.Data.Finset.Basic

/-! # The chat server with a flag for each descriptor (lab 04)
`clients[j]` says that descriptor `j` is a client. A message is read into a buffer that it may
fill, and a terminator goes behind it. The kernel's part is which descriptors are open. -/
namespace FdChatServer

open Execution
open CString (Byte)

def fdSetSize : ℕ := 1024
def maxEvents : ℕ := 64
def bufSize : ℕ := 1024

/-- `connections` are the clients' descriptors that `accept` has returned and that are open;
`batch` is what is left of `events[]`. -/
structure State where
  clients : ℕ → Bool
  connections : Finset ℕ
  batch : List ℕ

/-- `accept` has its result, `none` for -1. `read []` is a result of 0 or -1, and `ignore` an event
without `EPOLLIN`. -/
inductive Event where
  | poll (ready : List ℕ)
  | accept (client : Option ℕ)
  | read (bytes : List Byte)
  | ignore
  deriving DecidableEq

/-- `serverFd` and the other descriptors open before the loop are `reserved`. -/
structure Kernel where
  serverFd : ℕ
  reserved : Finset ℕ
  server : serverFd ∈ reserved

def next (s : State) : Event → State
  | .poll ready => { s with batch := ready }
  | .accept none => { s with batch := s.batch.tail }
  | .accept (some fd) =>
    { clients := Function.update s.clients fd true
      connections := insert fd s.connections
      batch := s.batch.tail }
  | .read bytes =>
    match s.batch with
    | [] => s
    | fd :: rest =>
      if bytes = [] then
        { clients := Function.update s.clients fd false
          connections := s.connections.erase fd
          batch := rest }
      else { s with batch := rest }
  | .ignore => { s with batch := s.batch.tail }

/-- A client's event is being handled. -/
def AtClient (k : Kernel) (s : State) : Prop := ∃ fd ∈ s.batch.head?, fd ≠ k.serverFd

def Enabled (k : Kernel) (s : State) : Event → Prop
  | .poll ready => s.batch = [] ∧ ready.length ≤ maxEvents ∧ ready.Nodup ∧
    ∀ fd ∈ ready, fd = k.serverFd ∨ fd ∈ s.connections
  | .accept client => s.batch.head? = some k.serverFd ∧
    ∀ fd ∈ client, fd ∉ k.reserved ∧ fd ∉ s.connections
  | .read bytes => AtClient k s ∧ bytes.length ≤ bufSize
  | .ignore => AtClient k s

def initial : State := ⟨fun _ => false, ∅, []⟩

def machine (k : Kernel) : Machine State Event := ⟨initial, Enabled k, next⟩

/-- The loop over all descriptors; each call of `write` with what it is given. -/
def writes (k : Kernel) (s : State) (fd : ℕ) (bytes : List Byte) : List (ℕ × List Byte) :=
  ((List.range fdSetSize).filter fun j => s.clients j ∧ j ≠ fd ∧ j ≠ k.serverFd).map (·, bytes)

/-- The entries of `clients[]` that the step loads or stores. -/
def tableAccesses (s : State) : Event → List ℕ
  | .poll _ | .accept none | .ignore => []
  | .accept (some fd) => [fd]
  | .read bytes => if bytes = [] then s.batch.head?.toList else List.range fdSetSize

/-- What `read` stores, and `buffer[bytes] = '\0'`. -/
def bufferAccesses : Event → List ℕ
  | .read bytes => if bytes = [] then [] else List.range bytes.length ++ [bytes.length]
  | .poll _ | .accept _ | .ignore => []

/-- The flags say which descriptors are clients. -/
def FlagsExact (s : State) : Prop := ∀ j, j < fdSetSize ∧ s.clients j = true ↔ j ∈ s.connections

/-- A chunk goes once to every other client. -/
def Forwards (k : Kernel) (s : State) : Event → Prop
  | .read bytes => ∀ fd ∈ s.batch.head?, bytes ≠ [] → (writes k s fd bytes).Nodup ∧
    ∀ w, w ∈ writes k s fd bytes ↔ w.1 ∈ s.connections ∧ w.1 ≠ fd ∧ w.2 = bytes
  | .poll _ | .accept _ | .ignore => True

structure Right (k : Kernel) (s : State) (e : Event) : Prop where
  table : ∀ i ∈ tableAccesses s e, i < fdSetSize
  buffer : ∀ i ∈ bufferAccesses e, i < bufSize
  flags : FlagsExact (next s e)
  forwards : Forwards k s e

/-- The table has a flag for the client, and the buffer a place for the terminator. -/
def Fits (_ : State) : Event → Prop
  | .accept client => ∀ fd ∈ client, fd < fdSetSize
  | .read bytes => bytes.length < bufSize
  | .poll _ | .ignore => True

instance (k : Kernel) (s : State) (e : Event) : Decidable ((machine k).Enabled s e) := by
  cases e <;> simp only [machine, Enabled, AtClient] <;> infer_instance

instance (s : State) (e : Event) : Decidable (Fits s e) := by
  cases e <;> simp only [Fits] <;> infer_instance

/-! ## What holds before every step -/

structure Invariant (k : Kernel) (s : State) : Prop where
  flags : ∀ j, s.clients j = true ↔ j ∈ s.connections
  low : ∀ fd ∈ s.connections, fd < fdSetSize
  fresh : ∀ fd ∈ s.connections, fd ∉ k.reserved
  nodup : s.batch.Nodup
  batch : ∀ fd ∈ s.batch, fd = k.serverFd ∨ fd ∈ s.connections

variable {k : Kernel} {s : State} {e : Event}

theorem invariant_initial : Invariant k initial := by
  constructor <;> simp [initial]

theorem Invariant.tail (h : Invariant k s) : Invariant k { s with batch := s.batch.tail } :=
  ⟨h.flags, h.low, h.fresh, h.nodup.tail, fun fd hfd => h.batch fd (List.mem_of_mem_tail hfd)⟩

theorem Invariant.accept (h : Invariant k s) {fd : ℕ} (hlow : fd < fdSetSize)
    (hfresh : fd ∉ k.reserved) : Invariant k (next s (.accept (some fd))) where
  flags j := by
    by_cases hj : j = fd
    · simp [next, hj]
    · simp [next, hj, h.flags]
  low x hx := by
    rcases Finset.mem_insert.mp hx with rfl | hx
    · exact hlow
    · exact h.low x hx
  fresh x hx := by
    rcases Finset.mem_insert.mp hx with rfl | hx
    · exact hfresh
    · exact h.fresh x hx
  nodup := h.nodup.tail
  batch x hx := (h.batch x (List.mem_of_mem_tail hx)).imp_right (Finset.mem_insert_of_mem ·)

/-- As a batch has a descriptor once, what is left of it does not have the one that is closed. -/
theorem Invariant.hangup (h : Invariant k s) (he : AtClient k s) :
    Invariant k (next s (.read [])) := by
  obtain ⟨fd, hfd, hne⟩ := he
  obtain ⟨rest, hbatch⟩ := List.head?_eq_some_iff.mp hfd
  have hnodup := h.nodup
  rw [hbatch] at hnodup
  obtain ⟨hnot, hrest⟩ := List.nodup_cons.mp hnodup
  have hnext : next s (.read []) =
      ⟨Function.update s.clients fd false, s.connections.erase fd, rest⟩ := by
    simp only [next, hbatch]
    rfl
  rw [hnext]
  refine ⟨fun j => ?_, fun x hx => h.low x (Finset.mem_of_mem_erase hx),
    fun x hx => h.fresh x (Finset.mem_of_mem_erase hx), hrest, fun x hx => ?_⟩
  · by_cases hj : j = fd
    · simp [hj]
    · simp [hj, h.flags]
  · have hx' : x ≠ fd := fun heq => hnot (heq ▸ hx)
    have hmem := h.batch x (by rw [hbatch]; exact List.mem_cons_of_mem _ hx)
    exact hmem.imp_right fun hx => Finset.mem_erase.mpr ⟨hx', hx⟩

theorem invariant_next (h : Invariant k s) (he : Enabled k s e) (hf : Fits s e) :
    Invariant k (next s e) := by
  cases e with
  | poll ready => exact ⟨h.flags, h.low, h.fresh, he.2.2.1, he.2.2.2⟩
  | accept client =>
    cases client with
    | none => exact h.tail
    | some fd => exact h.accept (hf fd rfl) (he.2 fd rfl).1
  | read bytes =>
    by_cases hb : bytes = []
    · subst hb
      exact h.hangup he.1
    · obtain ⟨fd, hfd, -⟩ := he.1
      obtain ⟨rest, hbatch⟩ := List.head?_eq_some_iff.mp hfd
      have hnext : next s (.read bytes) = { s with batch := s.batch.tail } := by
        simp only [next, hbatch, if_neg hb]
        rfl
      rw [hnext]
      exact h.tail
  | ignore => exact h.tail

theorem Invariant.flagsExact (h : Invariant k s) : FlagsExact s := by
  intro j
  rw [h.flags]
  exact ⟨And.right, fun hj => ⟨h.low j hj, hj⟩⟩

theorem Invariant.forwards (h : Invariant k s) : Forwards k s e := by
  cases e with
  | read bytes =>
    intro fd hfd hb
    refine ⟨?_, fun w => ?_⟩
    · apply List.Nodup.map fun a b hab => congrArg Prod.fst hab
      exact List.nodup_range.filter _
    · simp only [writes, List.mem_map, List.mem_filter, List.mem_range, decide_eq_true_eq]
      constructor
      · rintro ⟨j, ⟨-, hj, hne, -⟩, rfl⟩
        exact ⟨(h.flags j).mp hj, hne, rfl⟩
      · rintro ⟨hj, hne, hw⟩
        have hserver : w.1 ≠ k.serverFd := fun heq => h.fresh _ hj (heq ▸ k.server)
        exact ⟨w.1, ⟨h.low _ hj, (h.flags _).mpr hj, hne, hserver⟩, by rw [← hw]⟩
  | poll | accept | ignore => trivial

theorem Invariant.table (h : Invariant k s) (he : Enabled k s e) (hf : Fits s e) :
    ∀ i ∈ tableAccesses s e, i < fdSetSize := by
  intro i hi
  cases e with
  | poll | ignore => cases hi
  | accept client =>
    cases client with
    | none => cases hi
    | some fd =>
      rw [List.mem_singleton.mp hi]
      exact hf fd rfl
  | read bytes =>
    simp only [tableAccesses] at hi
    split at hi
    · obtain ⟨fd, hfd, hne⟩ := he.1
      have hi : i = fd := by simpa [Option.mem_def.mp hfd] using hi
      apply h.low
      rw [hi]
      exact (h.batch fd (List.mem_of_mem_head? hfd)).resolve_left hne
    · exact List.mem_range.mp hi

theorem buffer_inside (hf : Fits s e) : ∀ i ∈ bufferAccesses e, i < bufSize := by
  intro i hi
  cases e with
  | read bytes =>
    have hlt : bytes.length < bufSize := hf
    simp only [bufferAccesses] at hi
    split at hi
    · cases hi
    · simp only [List.mem_append, List.mem_range, List.mem_singleton] at hi
      omega
  | poll | accept | ignore => cases hi

theorem right_iff_fits (h : Invariant k s) (he : Enabled k s e) : Right k s e ↔ Fits s e := by
  constructor
  · intro hr
    cases e with
    | poll | ignore => trivial
    | accept client =>
      intro fd hfd
      apply hr.table
      rw [Option.mem_def.mp hfd]
      exact List.mem_singleton_self fd
    | read bytes =>
      by_cases hb : bytes = []
      · rw [hb]
        exact (by decide : 0 < bufSize)
      · apply hr.buffer
        simp [bufferAccesses, hb]
  · intro hf
    exact ⟨h.table he hf, buffer_inside hf, (invariant_next h he hf).flagsExact, h.forwards⟩

/-- The server is right exactly as long as `accept` returns descriptors below `FD_SETSIZE` and no
read fills the buffer. -/
theorem chat_right_iff (k : Kernel) (es : List Event) (h : (machine k).Valid es) :
    (machine k).Along (Right k) es ↔ (machine k).Along Fits es :=
  Machine.along_iff_of_invariant invariant_initial (fun _ _ => invariant_next)
    (fun _ _ => right_iff_fits) h

def kernel : Kernel := ⟨3, {0, 1, 2, 3, 4}, by decide⟩

/-- Two clients, a message, and a descriptor that is used again in the batch in which it was
closed. -/
theorem chat_right_reuse : (machine kernel).Along (Right kernel)
    [.poll [3], .accept (some 5), .poll [3], .accept (some 6), .poll [5, 3], .read [104, 105],
      .accept (some 7), .poll [6, 3], .read [], .accept (some 6), .poll [6], .read [111]] :=
  (chat_right_iff kernel _ (by decide)).mpr (by decide)

/-- As many bytes as the buffer has, and a descriptor that `clients[]` has no flag for. -/
theorem chat_not_right :
    ((machine kernel).Valid
        [.poll [3], .accept (some 5), .poll [5], .read (List.replicate 1024 65)] ∧
      ¬ (machine kernel).Along (Right kernel)
        [.poll [3], .accept (some 5), .poll [5], .read (List.replicate 1024 65)]) ∧
    (machine kernel).Valid [.poll [3], .accept (some 1024)] ∧
      ¬ (machine kernel).Along (Right kernel) [.poll [3], .accept (some 1024)] := by
  have hfull : (machine kernel).Valid
      [.poll [3], .accept (some 5), .poll [5], .read (List.replicate 1024 65)] := by decide +kernel
  have hhigh : (machine kernel).Valid [.poll [3], .accept (some 1024)] := by decide
  refine ⟨⟨hfull, fun h => ?_⟩, hhigh, fun h => ?_⟩
  · obtain ⟨-, -, -, hread, -⟩ := h
    have hlast := hread.buffer 1024 (by decide +kernel)
    exact absurd hlast (by decide)
  · obtain ⟨-, haccept, -⟩ := h
    have hflag := haccept.table 1024 (by decide)
    exact absurd hflag (by decide)

end FdChatServer
