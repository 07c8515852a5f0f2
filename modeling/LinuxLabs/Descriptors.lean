import Mathlib.Data.List.Basic
import Mathlib.Logic.Function.Basic

/-! # Descriptor tables
What the descriptors of a process refer to, and what `dup2` and `close` do to them. -/
namespace Descriptors

universe u

abbrev Table (α : Type u) := ℕ → Option α

inductive Call where
  | dup2 (src dst : ℕ)
  | close (fd : ℕ)
  deriving DecidableEq

variable {α : Type u}

/-- `dup2` of a descriptor that is not open fails and changes nothing. -/
def Call.run (t : Table α) : Call → Table α
  | .dup2 src dst =>
    match t src with
    | some f => Function.update t dst (some f)
    | none => t
  | .close fd => Function.update t fd none

def runAll (t : Table α) (calls : List Call) : Table α := calls.foldl Call.run t

@[simp] theorem runAll_nil (t : Table α) : runAll t [] = t := rfl

@[simp] theorem runAll_cons (t : Table α) (c : Call) (calls : List Call) :
    runAll t (c :: calls) = runAll (c.run t) calls := rfl

theorem runAll_append (t : Table α) (calls calls' : List Call) :
    runAll t (calls ++ calls') = runAll (runAll t calls) calls' := List.foldl_append

theorem runAll_concat (t : Table α) (calls : List Call) (c : Call) :
    runAll t (calls ++ [c]) = c.run (runAll t calls) := runAll_append t calls [c]

theorem dup2_run {t : Table α} {src : ℕ} {f : α} (h : t src = some f) (dst : ℕ) :
    (Call.dup2 src dst).run t = Function.update t dst (some f) := by
  simp only [Call.run, h]

/-- Closing leaves the other descriptors alone, in whatever order it is done. -/
theorem runAll_close (t : Table α) (fds : List ℕ) (fd : ℕ) :
    runAll t (fds.map Call.close) fd = if fd ∈ fds then none else t fd := by
  induction fds generalizing t with
  | nil => simp
  | cons a fds ih =>
    rw [List.map_cons, runAll_cons, ih]
    by_cases hfd : fd = a
    · subst hfd
      simp [Call.run]
    · simp [Call.run, hfd]

end Descriptors
