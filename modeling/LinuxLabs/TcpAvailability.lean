import LinuxLabs.TcpLoadBalancer
import Mathlib.Data.Finset.Max
import Mathlib.Order.Fin.Basic

/-! # The TCP load balancers when backends refuse
`current_backend` moves on only past a backend that accepted, so the balancer stays with
the first one that refuses. -/
namespace TcpAvailability

open Execution TcpLoadBalancer

/-- The backends in `refusing` refuse throughout, and the others accept. -/
def Fixed (refusing : Finset Backend) (s : State) : Event → Prop
  | .accept _ _ r => r = .connected ↔ s.currentBackend ∉ refusing
  | _ => True

instance (refusing : Finset Backend) (s : State) (e : Event) : Decidable (Fixed refusing s e) := by
  casesm Event <;> simp only [Fixed] <;> infer_instance

/-- Among any `maxBackends` clients accepted one after the other one is paired. -/
def Available (outcomes : List Bool) : Prop :=
  ∀ i, i + maxBackends ≤ outcomes.length →
    ∃ j, i ≤ j ∧ j < i + maxBackends ∧ outcomes[j]? = some true

/-- The `j`-th client is paired when it comes before the first refusing backend's turn. -/
structure Stuck (refusing : Finset Backend) (s : State) : Prop where
  outcome : ∀ (j : ℕ) (b : Bool), s.outcomes[j]? = some b →
    (b = true ↔ ∀ i ∈ refusing, j < i.val)
  turn : refusing.Nonempty → (∀ i ∈ refusing, s.outcomes.length ≤ i.val) →
    s.currentBackend.val = s.outcomes.length
  stay : ∀ i ∈ refusing, i.val < s.outcomes.length → s.currentBackend ∈ refusing

theorem initial_stuck (refusing : Finset Backend) (listenFd : Fd) (reserved : Finset Fd) :
    Stuck refusing (initial listenFd reserved) :=
  ⟨by simp [initial], fun _ _ => rfl, fun i _ hi => absurd hi (Nat.not_lt_zero _)⟩

/-- Whether the next client is paired. -/
theorem Stuck.paired_iff {refusing : Finset Backend} {s : State} (h : Stuck refusing s) :
    s.currentBackend ∉ refusing ↔ ∀ i ∈ refusing, s.outcomes.length < i.val := by
  constructor
  · intro hc i hi
    by_contra hle
    have hall : ∀ i ∈ refusing, s.outcomes.length ≤ i.val := fun j hj => by
      by_contra hlt
      exact hc (h.stay j hj (by omega))
    have hturn := h.turn ⟨i, hi⟩ hall
    have heq : i = s.currentBackend := Fin.ext (by have := hall i hi; omega)
    exact hc (heq ▸ hi)
  · intro hall hc
    have hturn := h.turn ⟨_, hc⟩ fun i hi => (hall i hi).le
    have := hall _ hc
    omega

theorem Stuck.accept {refusing : Finset Backend} {s : State} (h : Stuck refusing s)
    {cfd bfd : Fd} {r : ConnectResult} (hf : Fixed refusing s (.accept cfd bfd r)) :
    Stuck refusing (next s (.accept cfd bfd r)) := by
  have houtcome (b : Bool) (hb : b = true ↔ ∀ i ∈ refusing, s.outcomes.length < i.val) :
      ∀ (j : ℕ) (b' : Bool), (s.outcomes ++ [b])[j]? = some b' →
        (b' = true ↔ ∀ i ∈ refusing, j < i.val) := by
    intro j b' hj
    rcases Nat.lt_trichotomy j s.outcomes.length with hlt | rfl | hgt
    · rw [List.getElem?_append_left hlt] at hj
      exact h.outcome j b' hj
    · rw [List.getElem?_concat_length] at hj
      exact Option.some.inj hj ▸ hb
    · rw [List.getElem?_eq_none (by simp; omega)] at hj
      cases hj
  have hpaired := h.paired_iff
  by_cases hc : s.currentBackend ∈ refusing
  · have hr : connectBackend bfd r = none := by
      cases r with
      | connected => exact absurd hc (hf.mp rfl)
      | noSocket | refused => rfl
    have hnot : ¬ ∀ i ∈ refusing, s.outcomes.length < i.val := fun hall => hpaired.mpr hall hc
    simp only [next, hr]
    refine ⟨houtcome false (by simp [hnot]), fun hne hall => ?_, fun _ _ _ => hc⟩
    exact absurd (fun i hi => Nat.lt_of_succ_le (by simpa using hall i hi)) hnot
  · obtain rfl : r = .connected := hf.mpr hc
    have hall := hpaired.mp hc
    simp only [next, connectBackend]
    refine ⟨houtcome true ⟨fun _ => hall, fun _ => rfl⟩, fun hne hlen => ?_, fun i hi hlt => ?_⟩
    · have hturn := h.turn hne fun i hi => (hall i hi).le
      obtain ⟨i, hi⟩ := hne
      have hi := hall i hi
      have hlast : s.currentBackend < Fin.last 2 := by
        have hi3 : i.val < 3 := i.isLt
        rw [Fin.lt_def, Fin.val_last]
        omega
      rw [List.length_append, List.length_singleton, Fin.val_add_one_of_lt hlast, hturn]
    · have := hall i hi
      simp only [List.length_append, List.length_singleton] at hlt
      have hlast : (s.outcomes.length) + 1 ≤ i.val := this
      omega

theorem step_stuck {refusing : Finset Backend} {s : State} (h : Stuck refusing s) {e : Event}
    (hf : Fixed refusing s e) : Stuck refusing (next s e) := by
  cases e with
  | accept cfd bfd r => exact h.accept hf
  | acceptFailed => exact h
  | ready fd r accepted =>
    simp only [next]
    split
    · exact h
    · cases r <;> exact ⟨h.outcome, h.turn, h.stay⟩

/-- With a fixed set of refusing backends the windows are all served in exactly the runs that
end before `maxBackends` clients have met the first refusing one. -/
theorem available_iff (refusing : Finset Backend) (listenFd : Fd) (reserved : Finset Fd)
    (es : List Event) (h : (machine listenFd reserved).Valid es)
    (hf : (machine listenFd reserved).Along (Fixed refusing) es) :
    let outcomes := ((machine listenFd reserved).run es).outcomes
    Available outcomes ↔ ∀ i ∈ refusing, (∀ j ∈ refusing, i ≤ j) →
      outcomes.length < i.val + maxBackends := by
  intro outcomes
  have hs : Stuck refusing ((machine listenFd reserved).run es) :=
    Machine.invariant_along (I := Stuck refusing) (initial_stuck refusing listenFd reserved)
      (fun _ _ hs _ hf => step_stuck hs hf) h hf
  have hget {j : ℕ} (hj : j < outcomes.length) :
      outcomes[j]? = some true ↔ ∀ i ∈ refusing, j < i.val := by
    rw [List.getElem?_eq_getElem hj, Option.some.injEq]
    exact hs.outcome j _ (List.getElem?_eq_getElem hj)
  constructor
  · intro ha i hi hmin
    by_contra hlen
    obtain ⟨j, hij, hj, hb⟩ := ha i.val (by omega)
    have := (hget (by omega)).mp hb i hi
    omega
  · intro hlen k hk
    change k + 3 ≤ outcomes.length at hk
    refine ⟨k, le_rfl, Nat.lt_add_of_pos_right (by decide), (hget (by omega)).mpr fun i hi => ?_⟩
    have hlt := hlen (refusing.min' ⟨i, hi⟩) (refusing.min'_mem _)
      fun j hj => refusing.min'_le j hj
    have hle : (refusing.min' ⟨i, hi⟩).val ≤ i.val := refusing.min'_le i hi
    change outcomes.length < _ + 3 at hlt
    omega

/-- The third backend refuses, and the run ends before its fifth client. -/
theorem available_two_paired :
    let es : List Event := [.accept 5 6 .connected, .accept 7 8 .connected, .accept 9 10 .refused,
      .accept 9 10 .refused]
    let outcomes := ((machine 3 {0, 1, 2, 4}).run es).outcomes
    Available outcomes ↔ ∀ i ∈ ({2} : Finset Backend), (∀ j ∈ ({2} : Finset Backend), i ≤ j) →
      outcomes.length < i.val + maxBackends := by
  exact available_iff {2} 3 {0, 1, 2, 4} _ (by decide) (by decide)

/-- Only the first backend refuses, and three clients in a row are turned away. -/
theorem stays_with_refusing_backend :
    ¬ ∀ (refusing : Finset Backend) (es : List Event), (∃ b, b ∉ refusing) →
      (machine 3 {0, 1, 2, 4}).Valid es → (machine 3 {0, 1, 2, 4}).Along (Fixed refusing) es →
        Available ((machine 3 {0, 1, 2, 4}).run es).outcomes := by
  intro hall
  obtain ⟨j, _, hj, hb⟩ := hall {0} [.accept 5 6 .refused, .accept 5 6 .refused,
    .accept 5 6 .refused] ⟨1, by decide⟩ (by decide) (by decide) 0 (by decide)
  change j < 3 at hj
  obtain rfl | rfl | rfl : j = 0 ∨ j = 1 ∨ j = 2 := by omega
  all_goals cases hb

end TcpAvailability
