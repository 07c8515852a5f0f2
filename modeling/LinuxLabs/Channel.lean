import Mathlib.Data.List.Basic
import Mathlib.Tactic.Common

/-! # Streams between two programs
A stream is kept in two parts, what its reader has taken and what is still on its way, so a
reader can neither miss nor repeat an item. Nothing here names a program. -/
namespace Channel

universe u

structure Stream (α : Type u) where
  received : List α
  pending : List α
  deriving DecidableEq

variable {α : Type u}

namespace Stream

def empty : Stream α := ⟨[], []⟩

def written (c : Stream α) : List α := c.received ++ c.pending

def write (c : Stream α) (xs : List α) : Stream α := { c with pending := c.pending ++ xs }

/-- The reader takes up to `n` items. -/
def read (c : Stream α) (n : ℕ) : Stream α :=
  ⟨c.received ++ c.pending.take n, c.pending.drop n⟩

variable (c : Stream α) (xs : List α) (n : ℕ)

@[simp] theorem written_empty : (empty : Stream α).written = [] := rfl

@[simp] theorem received_empty : (empty : Stream α).received = [] := rfl

@[simp] theorem pending_empty : (empty : Stream α).pending = [] := rfl

@[simp] theorem received_write : (c.write xs).received = c.received := rfl

@[simp] theorem pending_write : (c.write xs).pending = c.pending ++ xs := rfl

@[simp] theorem written_write : (c.write xs).written = c.written ++ xs := by
  simp [written, write]

@[simp] theorem received_read : (c.read n).received = c.received ++ c.pending.take n := rfl

@[simp] theorem pending_read : (c.read n).pending = c.pending.drop n := rfl

@[simp] theorem written_read : (c.read n).written = c.written := by
  simp [written, read]

theorem received_prefix : c.received <+: c.written := List.prefix_append _ _

variable {c}

theorem received_of_written (h : c.written = []) : c.received = [] :=
  (List.append_eq_nil_iff.mp h).1

theorem pending_of_written (h : c.written = []) : c.pending = [] :=
  (List.append_eq_nil_iff.mp h).2

end Stream

/-! ## Records of one size -/

/-- The `i`-th record is `f i`, and all of them are of `size` items. -/
structure Records (f : ℕ → List α) (size : ℕ) : Prop where
  length : ∀ i, (f i).length = size
  pos : 0 < size

variable {f : ℕ → List α} {size r w : ℕ} {c : Stream α}

theorem Records.total (h : Records f size) (m : ℕ) :
    ((List.range m).flatMap f).length = m * size := by
  induction m with
  | zero => simp
  | succ m ih =>
    rw [List.range_succ, List.flatMap_append, List.length_append, ih, List.flatMap_singleton,
      h.length, Nat.succ_mul]

theorem prefix_range {m n : ℕ} (h : m ≤ n) : List.range m <+: List.range n := by
  obtain ⟨d, rfl⟩ := Nat.exists_eq_add_of_le h
  rw [List.range_add]
  exact List.prefix_append _ _

theorem flatMap_range_of_lt (f : ℕ → List α) (h : r < w) :
    ∃ rest, (List.range w).flatMap f = (List.range r).flatMap f ++ (f r ++ rest) := by
  obtain ⟨d, rfl⟩ := Nat.exists_eq_add_of_lt h
  induction d with
  | zero => exact ⟨[], by simp [List.range_succ]⟩
  | succ d ih =>
    obtain ⟨rest, hrest⟩ := ih (by omega)
    refine ⟨rest ++ f (r + d + 1), ?_⟩
    rw [List.range_succ, List.flatMap_append, ← Nat.add_assoc, hrest]
    simp

/-- A reader that has taken whole records finds the next one whole. -/
theorem Records.next (h : Records f size) (hw : c.written = (List.range w).flatMap f)
    (hr : c.received = (List.range r).flatMap f) (hlt : r < w) :
    c.pending.take size = f r ∧ c.pending ≠ [] := by
  obtain ⟨rest, hrest⟩ := flatMap_range_of_lt f hlt
  have hpending : c.pending = f r ++ rest := by
    rw [Stream.written, hr, hrest] at hw
    exact List.append_cancel_left hw
  rw [hpending]
  refine ⟨List.take_left' (h.length r), ?_⟩
  intro hnil
  have hlen := congrArg List.length (List.append_eq_nil_iff.mp hnil).1
  rw [h.length, List.length_nil] at hlen
  exact absurd h.pos (by omega)

/-- Behind the last record there is nothing. -/
theorem pending_of_eq (hw : c.written = (List.range w).flatMap f)
    (hr : c.received = (List.range w).flatMap f) : c.pending = [] := by
  rw [Stream.written, hr] at hw
  exact List.append_right_eq_self.mp hw

theorem Records.le (h : Records f size) (hw : c.written = (List.range w).flatMap f)
    (hr : c.received = (List.range r).flatMap f) : r ≤ w := by
  have hle := c.received_prefix.length_le
  rw [hw, hr, h.total, h.total] at hle
  exact Nat.le_of_mul_le_mul_right hle h.pos

end Channel
