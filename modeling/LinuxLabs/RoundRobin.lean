import LinuxLabs.Execution
import Mathlib.Data.Int.CardIntervalMod
import Mathlib.Data.Fin.Basic

/-! # Taking turns
A counter that goes around picks each place as often as any other, up to one, and each exactly
once in as many picks as there are places. Nothing here names a program. -/
namespace RoundRobin

open Execution

universe u v

variable {n : ℕ} [NeZero n]

/-- The picks go around from the first place. -/
def Rotating (ps : List (Fin n)) : Prop := ps = (List.range ps.length).map (Fin.ofNat n)

theorem Rotating.take {ps : List (Fin n)} (h : Rotating ps) {m : ℕ} (hm : m ≤ ps.length) :
    ps.take m = (List.range m).map (Fin.ofNat n) := by
  rw [h, ← List.map_take, List.take_range, Nat.min_eq_left hm]

theorem Rotating.concat {ps : List (Fin n)} (h : Rotating ps) :
    Rotating (ps ++ [Fin.ofNat n ps.length]) := by
  rw [Rotating, List.length_append, List.length_singleton, List.range_succ, List.map_append,
    ← h, List.map_singleton]

/-! ## Machines that take turns -/

variable {σ : Type u} {ε : Type v}

end RoundRobin
