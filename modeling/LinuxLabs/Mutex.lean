import Mathlib.Tactic.Common

/-! # Who holds a mutex
Which threads are between their lock and their unlock is read off their positions; the mutex
itself knows its owner. `Owned` says that these agree, so there is at most one such thread. -/
namespace Mutex

universe u

variable {ι : Type u} {owner owner' : Option ι} {holds holds' : ι → Prop} {i j : ι}

def Owned (owner : Option ι) (holds : ι → Prop) : Prop := ∀ i, owner = some i ↔ holds i

theorem Owned.eq (h : Owned owner holds) (hi : holds i) (hj : holds j) : i = j :=
  Option.some.inj (((h i).mpr hi).symm.trans ((h j).mpr hj))

theorem Owned.free (h : Owned owner holds) (hfree : owner = none) (i : ι) : ¬ holds i := by
  intro hi
  rw [(h i).mpr hi] at hfree
  cases hfree

theorem Owned.keep (h : Owned owner holds) (hsame : ∀ i, holds' i ↔ holds i) :
    Owned owner holds' := fun i => (h i).trans (hsame i).symm

section Step

variable (h : Owned owner holds) (hother : ∀ j, j ≠ i → (holds' j ↔ holds j))
include h hother

theorem Owned.acquire (hfree : owner = none) (hi : holds' i) : Owned (some i) holds' := by
  intro j
  by_cases hj : j = i
  · subst hj
    exact iff_of_true rfl hi
  · refine iff_of_false (fun he => hj (Option.some.inj he).symm) ?_
    rw [hother j hj]
    exact h.free hfree j

theorem Owned.release (hi : holds i) (hi' : ¬ holds' i) : Owned none holds' := by
  intro j
  by_cases hj : j = i
  · subst hj
    exact iff_of_false (by simp) hi'
  · refine iff_of_false (by simp) ?_
    rw [hother j hj]
    exact fun hh => hj (h.eq hh hi)

/-- A step of one thread, whatever it does to the mutex. -/
theorem Owned.step (htake : holds' i → holds i ∨ owner = none)
    (hin : holds' i → owner' = some i) (hout : ¬ holds' i → holds i → owner' = none)
    (hidle : ¬ holds' i → ¬ holds i → owner' = owner) : Owned owner' holds' := by
  have hkeep (hi : holds' i ↔ holds i) : Owned owner holds' := by
    refine h.keep fun j => ?_
    by_cases hj : j = i
    · subst hj
      exact hi
    · exact hother j hj
  by_cases hi : holds' i
  · rw [hin hi]
    rcases htake hi with hold | hfree
    · rw [← (h i).mpr hold]
      exact hkeep (iff_of_true hi hold)
    · exact h.acquire hother hfree hi
  · by_cases hold : holds i
    · rw [hout hi hold]
      exact h.release hother hold hi
    · rw [hidle hi hold]
      exact hkeep (iff_of_false hi hold)

end Step

end Mutex
