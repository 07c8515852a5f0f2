import Mathlib.Data.Finset.Card

/-! # Signals that wait to be taken
A signal is pending from when it is sent until the process takes it, so a second one of its kind in
between is lost. A stopped process takes nothing; what continues it works when it is sent. -/
namespace Signals

/-- What a signal does to a process that does not catch it. -/
inductive Effect where
  | terminate
  | stop
  | resume
  | ignore
  deriving DecidableEq

structure Process (σ : Type) where
  pending : Finset σ
  stopped : Bool
  ended : Bool

variable {σ : Type}

def Process.start : Process σ := ⟨∅, false, false⟩

def Process.exit (p : Process σ) : Process σ := { p with ended := true }

variable [DecidableEq σ]

/-- The signals that stop and those that continue take each other's place. -/
def Process.send (effect : σ → Effect) (p : Process σ) (g : σ) : Process σ :=
  if p.ended then p
  else
    match effect g with
    | .stop => { p with pending := insert g (p.pending.filter fun h => effect h ≠ .resume) }
    | .resume =>
      { p with
        pending := insert g (p.pending.filter fun h => effect h ≠ .stop)
        stopped := false }
    | .terminate | .ignore => { p with pending := insert g p.pending }

def Process.CanTake (p : Process σ) (g : σ) : Prop :=
  g ∈ p.pending ∧ p.stopped = false ∧ p.ended = false

instance (p : Process σ) (g : σ) : Decidable (p.CanTake g) :=
  inferInstanceAs (Decidable (_ ∧ _ ∧ _))

/-- What a handler does is up to the program. -/
def Process.take (effect : σ → Effect) (caught : Bool) (p : Process σ) (g : σ) : Process σ :=
  let p := { p with pending := p.pending.erase g }
  if caught then p
  else
    match effect g with
    | .terminate => { p with ended := true }
    | .stop => { p with stopped := true }
    | .resume | .ignore => p

/-- It is stopped, or will be when it takes its signals. -/
def Halting (effect : σ → Effect) (p : Process σ) : Prop :=
  p.stopped = true ∨ ∃ g ∈ p.pending, effect g = .stop

variable {effect : σ → Effect} {p : Process σ} {g h : σ} {caught : Bool}

omit [DecidableEq σ] in
theorem not_halting_start : ¬ Halting effect (Process.start : Process σ) := by
  simp [Halting, Process.start]

/-! ## What is sent -/

theorem send_ended : (p.send effect g).ended = p.ended := by
  unfold Process.send
  split_ifs
  · rfl
  · cases effect g <;> rfl

theorem send_stopped (hr : effect g ≠ .resume) : (p.send effect g).stopped = p.stopped := by
  unfold Process.send
  split_ifs
  · rfl
  · cases hk : effect g with
    | resume => exact absurd hk hr
    | stop | terminate | ignore => rfl

theorem mem_send (he : p.ended = false) : g ∈ (p.send effect g).pending := by
  unfold Process.send
  rw [he, if_neg Bool.false_ne_true]
  cases effect g <;> exact Finset.mem_insert_self _ _

theorem of_mem_send (hm : h ∈ (p.send effect g).pending) : h = g ∨ h ∈ p.pending := by
  unfold Process.send at hm
  split_ifs at hm
  · exact Or.inr hm
  · cases hk : effect g with
    | stop | resume =>
      rw [hk] at hm
      exact (Finset.mem_insert.mp hm).imp_right fun hf => (Finset.mem_filter.mp hf).1
    | terminate | ignore =>
      rw [hk] at hm
      exact Finset.mem_insert.mp hm

theorem card_send : (p.send effect g).pending.card ≤ p.pending.card + 1 := by
  unfold Process.send
  split_ifs
  · exact Nat.le_succ _
  · cases effect g with
    | stop | resume =>
      refine (Finset.card_insert_le _ _).trans (Nat.succ_le_succ ?_)
      exact Finset.card_filter_le _ _
    | terminate | ignore => exact Finset.card_insert_le _ _

/-- A signal that neither stops nor continues stays pending. -/
theorem mem_send_of_mem (hm : h ∈ p.pending) (hs : effect h ≠ .stop) (hr : effect h ≠ .resume) :
    h ∈ (p.send effect g).pending := by
  unfold Process.send
  split_ifs
  · exact hm
  · cases effect g with
    | stop => exact Finset.mem_insert_of_mem (Finset.mem_filter.mpr ⟨hm, hr⟩)
    | resume => exact Finset.mem_insert_of_mem (Finset.mem_filter.mpr ⟨hm, hs⟩)
    | terminate | ignore => exact Finset.mem_insert_of_mem hm

theorem halting_send_stop (he : p.ended = false) (hg : effect g = .stop) :
    Halting effect (p.send effect g) :=
  Or.inr ⟨g, mem_send he, hg⟩

theorem not_halting_send_resume (he : p.ended = false) (hg : effect g = .resume) :
    ¬ Halting effect (p.send effect g) := by
  unfold Halting Process.send
  rw [he, if_neg Bool.false_ne_true, hg]
  simp [hg]

theorem halting_send (hs : effect g ≠ .stop) (hr : effect g ≠ .resume) :
    Halting effect (p.send effect g) ↔ Halting effect p := by
  unfold Halting Process.send
  split_ifs
  · exact Iff.rfl
  · cases hk : effect g with
    | stop => exact absurd hk hs
    | resume => exact absurd hk hr
    | terminate | ignore => simp [hk]

/-! ## What is taken -/

theorem take_pending : (p.take effect caught g).pending = p.pending.erase g := by
  unfold Process.take
  split_ifs
  · rfl
  · cases effect g <;> rfl

theorem mem_take : h ∈ (p.take effect caught g).pending ↔ h ≠ g ∧ h ∈ p.pending := by
  rw [take_pending, Finset.mem_erase]

theorem card_take (ht : p.CanTake g) :
    (p.take effect caught g).pending.card + 1 = p.pending.card := by
  rw [take_pending, Finset.card_erase_add_one ht.1]

theorem take_ended : (p.take effect caught g).ended = true ↔
    p.ended = true ∨ caught = false ∧ effect g = .terminate := by
  unfold Process.take
  cases caught with
  | true => simp
  | false => cases effect g <;> simp

/-- A process that catches no signal that stops it is halting as much as before. -/
theorem halting_take (ht : p.CanTake g) (hc : caught = true → effect g ≠ .stop) :
    Halting effect (p.take effect caught g) ↔ Halting effect p := by
  obtain ⟨hm, hrun, -⟩ := ht
  by_cases hs : effect g = .stop
  · have hcaught : caught = false := by
      cases caught with
      | false => rfl
      | true => exact absurd hs (hc rfl)
    subst hcaught
    refine iff_of_true (Or.inl ?_) (Or.inr ⟨g, hm, hs⟩)
    simp [Process.take, hs]
  · have hstopped : (p.take effect caught g).stopped = p.stopped := by
      unfold Process.take
      split_ifs
      · rfl
      · cases hk : effect g with
        | stop => exact absurd hk hs
        | terminate | resume | ignore => rfl
    unfold Halting
    rw [hstopped]
    refine or_congr_right ⟨?_, ?_⟩
    · rintro ⟨h, hh, hstop⟩
      exact ⟨h, (mem_take.mp hh).2, hstop⟩
    · rintro ⟨h, hh, hstop⟩
      exact ⟨h, mem_take.mpr ⟨fun heq => hs (heq ▸ hstop), hh⟩, hstop⟩

end Signals
