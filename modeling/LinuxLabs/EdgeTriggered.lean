import Mathlib.Data.Nat.Notation
import Mathlib.Logic.Function.Basic
import Mathlib.Tactic.Common

/-! # Edge-triggered readiness
The kernel reports a source when something arrives on it and does not report again what is
left unread. A program that waits for the next report is not stuck on old input as long as
each source it watches has nothing unread, or a report still to be delivered. -/
namespace EdgeTriggered

universe u

/-- What was received but not read, and whether a notification has yet to be delivered. -/
structure Readiness (ι : Type u) where
  unread : ι → ℕ
  notified : ι → Bool

variable {ι : Type u} [DecidableEq ι]

namespace Readiness

def arrive (r : Readiness ι) (i : ι) (n : ℕ) : Readiness ι :=
  ⟨Function.update r.unread i (r.unread i + n), Function.update r.notified i true⟩

def notify (r : Readiness ι) (i : ι) : Readiness ι :=
  { r with notified := Function.update r.notified i true }

def consume (r : Readiness ι) (i : ι) (n : ℕ) : Readiness ι :=
  { r with unread := Function.update r.unread i (r.unread i - n) }

def deliver (r : Readiness ι) (is : List ι) : Readiness ι :=
  { r with notified := fun i => r.notified i && decide (i ∉ is) }

/-- A new source, for which `n` bytes have already come; a registration reports these. -/
def register (r : Readiness ι) (i : ι) (n : ℕ) : Readiness ι :=
  ⟨Function.update r.unread i n, Function.update r.notified i (decide (0 < n))⟩

/-- Nothing is stranded on `i`. -/
def Settled (r : Readiness ι) (i : ι) : Prop := r.unread i = 0 ∨ r.notified i = true

/-- Nothing is stranded on a watched source that the program is not about to see to. -/
def Covered (r : Readiness ι) (watched busy : ι → Prop) : Prop :=
  ∀ i, watched i → ¬ busy i → r.Settled i

instance (r : Readiness ι) (i : ι) : Decidable (r.Settled i) :=
  inferInstanceAs (Decidable (_ ∨ _))

variable {r : Readiness ι} {i j : ι} {n : ℕ} {watched busy busy' : ι → Prop}

theorem Settled.arrive (h : r.Settled i) (j : ι) (n : ℕ) : (r.arrive j n).Settled i := by
  by_cases hij : i = j
  · subst hij
    exact Or.inr (Function.update_self ..)
  · simpa [Settled, Readiness.arrive, Function.update_of_ne hij] using h

theorem Settled.notify (h : r.Settled i) (j : ι) : (r.notify j).Settled i := by
  by_cases hij : i = j
  · subst hij
    exact Or.inr (Function.update_self ..)
  · simpa [Settled, Readiness.notify, Function.update_of_ne hij] using h

theorem Settled.consume (h : r.Settled i) (j : ι) (n : ℕ) : (r.consume j n).Settled i := by
  rcases h with h | h
  · refine Or.inl ?_
    simp only [Readiness.consume, Function.update_apply]
    split
    · next hij =>
      subst hij
      omega
    · exact h
  · exact Or.inr h

/-- After reading `n` of the bytes on `i`. -/
theorem settled_consume (h : n ≤ r.unread i) :
    (r.consume i n).Settled i ↔ r.unread i = n ∨ r.notified i = true := by
  simp only [Settled, Readiness.consume, Function.update_self]
  refine or_congr_left ?_
  omega

theorem settled_register : (r.register i n).Settled i := by
  by_cases hn : 0 < n
  · exact Or.inr (by simp [Readiness.register, hn])
  · exact Or.inl (by simp [Readiness.register]; omega)

theorem Settled.register (h : r.Settled i) (j : ι) (n : ℕ) : (r.register j n).Settled i := by
  by_cases hij : i = j
  · subst hij
    exact settled_register
  · simpa [Settled, Readiness.register, Function.update_of_ne hij] using h

theorem Covered.arrive (h : r.Covered watched busy) (j : ι) (n : ℕ) :
    (r.arrive j n).Covered watched busy := fun i hi hb => (h i hi hb).arrive j n

theorem Covered.notify (h : r.Covered watched busy) (j : ι) :
    (r.notify j).Covered watched busy := fun i hi hb => (h i hi hb).notify j

/-- What is reported is what the program then sees to. -/
theorem Covered.deliver {is : List ι} (h : r.Covered watched busy) (hidle : ∀ i, ¬ busy i)
    (hbusy : ∀ i ∈ is, busy' i) : (r.deliver is).Covered watched busy' := by
  intro i hi hb
  have hnot : i ∉ is := fun hm => hb (hbusy i hm)
  rcases h i hi (hidle i) with hs | hs
  · exact Or.inl hs
  · exact Or.inr (by simp [Readiness.deliver, hs, hnot])

end Readiness

end EdgeTriggered
