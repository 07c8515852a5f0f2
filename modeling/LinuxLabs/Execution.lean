import Mathlib.Data.List.Induction
import Mathlib.Tactic.Common

/-! # Guarded machines and their finite runs
A machine separates what its environment may do (`Enabled`) from what the program
does in answer (`next`). A run is a list of events, so it can be evaluated; a claim
about every run is an induction on that list. Nothing here names a program. -/
namespace Execution

universe u v w

structure Machine (σ : Type u) (ε : Type v) where
  initial : σ
  Enabled : σ → ε → Prop
  next : σ → ε → σ

variable {σ : Type u} {ε : Type v}

namespace Machine

def runFrom (M : Machine σ ε) (s : σ) (es : List ε) : σ := es.foldl M.next s

def run (M : Machine σ ε) (es : List ε) : σ := M.runFrom M.initial es

/-- Every step of the run meets `C`, read off the state before it and its event. -/
def AlongFrom (M : Machine σ ε) (C : σ → ε → Prop) : σ → List ε → Prop
  | _, [] => True
  | s, e :: es => C s e ∧ M.AlongFrom C (M.next s e) es

def Along (M : Machine σ ε) (C : σ → ε → Prop) (es : List ε) : Prop :=
  M.AlongFrom C M.initial es

def Valid (M : Machine σ ε) (es : List ε) : Prop := M.Along M.Enabled es

/-- What the steps of the run show, in order. -/
def observeFrom {α : Type w} (M : Machine σ ε) (f : σ → ε → List α) : σ → List ε → List α
  | _, [] => []
  | s, e :: es => f s e ++ M.observeFrom f (M.next s e) es

def observe {α : Type w} (M : Machine σ ε) (f : σ → ε → List α) (es : List ε) : List α :=
  M.observeFrom f M.initial es

instance decidableAlongFrom (M : Machine σ ε) (C : σ → ε → Prop) [∀ s e, Decidable (C s e)] :
    (s : σ) → (es : List ε) → Decidable (M.AlongFrom C s es)
  | _, [] => isTrue trivial
  | s, e :: es => @instDecidableAnd _ _ _ (decidableAlongFrom M C (M.next s e) es)

instance (M : Machine σ ε) (C : σ → ε → Prop) [∀ s e, Decidable (C s e)] (es : List ε) :
    Decidable (M.Along C es) := decidableAlongFrom M C M.initial es

instance (M : Machine σ ε) [∀ s e, Decidable (M.Enabled s e)] (es : List ε) :
    Decidable (M.Valid es) := decidableAlongFrom M M.Enabled M.initial es

variable {M : Machine σ ε} {C D : σ → ε → Prop}

@[simp] theorem runFrom_nil (s : σ) : M.runFrom s [] = s := rfl

@[simp] theorem runFrom_cons (s : σ) (e : ε) (es : List ε) :
    M.runFrom s (e :: es) = M.runFrom (M.next s e) es := rfl

@[simp] theorem runFrom_append (s : σ) (es fs : List ε) :
    M.runFrom s (es ++ fs) = M.runFrom (M.runFrom s es) fs := List.foldl_append

@[simp] theorem run_nil : M.run [] = M.initial := rfl

@[simp] theorem run_append (es fs : List ε) : M.run (es ++ fs) = M.runFrom (M.run es) fs :=
  runFrom_append _ _ _

theorem run_concat (es : List ε) (e : ε) : M.run (es ++ [e]) = M.next (M.run es) e := by simp

@[simp] theorem alongFrom_nil (s : σ) : M.AlongFrom C s [] ↔ True := Iff.rfl

@[simp] theorem alongFrom_cons (s : σ) (e : ε) (es : List ε) :
    M.AlongFrom C s (e :: es) ↔ C s e ∧ M.AlongFrom C (M.next s e) es := Iff.rfl

theorem alongFrom_append (s : σ) (es fs : List ε) :
    M.AlongFrom C s (es ++ fs) ↔ M.AlongFrom C s es ∧ M.AlongFrom C (M.runFrom s es) fs := by
  induction es generalizing s with
  | nil => simp
  | cons e es ih => simp [ih, and_assoc]

theorem along_append (es fs : List ε) :
    M.Along C (es ++ fs) ↔ M.Along C es ∧ M.AlongFrom C (M.run es) fs :=
  alongFrom_append _ _ _

theorem along_concat (es : List ε) (e : ε) :
    M.Along C (es ++ [e]) ↔ M.Along C es ∧ C (M.run es) e := by
  simp [along_append]

theorem AlongFrom.imp (hCD : ∀ s e, C s e → D s e) {s : σ} {es : List ε}
    (h : M.AlongFrom C s es) : M.AlongFrom D s es := by
  induction es generalizing s with
  | nil => trivial
  | cons e es ih => exact ⟨hCD s e h.1, ih h.2⟩

theorem Along.imp (hCD : ∀ s e, C s e → D s e) {es : List ε} (h : M.Along C es) :
    M.Along D es := AlongFrom.imp hCD h

theorem alongFrom_and (s : σ) (es : List ε) :
    M.AlongFrom (fun s e => C s e ∧ D s e) s es ↔ M.AlongFrom C s es ∧ M.AlongFrom D s es := by
  induction es generalizing s with
  | nil => simp
  | cons e es ih => simp only [alongFrom_cons, ih, and_and_and_comm]

theorem along_and (es : List ε) :
    M.Along (fun s e => C s e ∧ D s e) es ↔ M.Along C es ∧ M.Along D es := alongFrom_and _ _

theorem valid_concat (es : List ε) (e : ε) :
    M.Valid (es ++ [e]) ↔ M.Valid es ∧ M.Enabled (M.run es) e := along_concat _ _

/-- A relation to a second machine, given by its own start and update, that holds
initially and survives every enabled step holds after every run. -/
theorem simulation {γ : Type w} {R : σ → γ → Prop} {g₀ : γ} {update : γ → ε → γ}
    (start : R M.initial g₀)
    (step : ∀ s g e, R s g → M.Enabled s e → R (M.next s e) (update g e))
    {es : List ε} (h : M.Valid es) : R (M.run es) (es.foldl update g₀) := by
  induction es using List.reverseRecOn with
  | nil => exact start
  | append_singleton es e ih =>
    obtain ⟨hv, he⟩ := (valid_concat es e).mp h
    rw [run_concat, List.foldl_append]
    exact step _ _ e (ih hv) he

theorem observeFrom_append {α : Type w} (f : σ → ε → List α) (s : σ) (es fs : List ε) :
    M.observeFrom f s (es ++ fs) = M.observeFrom f s es ++ M.observeFrom f (M.runFrom s es) fs := by
  induction es generalizing s with
  | nil => rfl
  | cons e es ih => simp [observeFrom, ih]

theorem observe_concat {α : Type w} (f : σ → ε → List α) (es : List ε) (e : ε) :
    M.observe f (es ++ [e]) = M.observe f es ++ f (M.run es) e := by
  simp [observe, observeFrom_append, observeFrom, run]

/-- An invariant of the state and what was observed until then. -/
theorem invariant_observed {α : Type w} {f : σ → ε → List α} {I : σ → List α → Prop}
    (start : I M.initial []) (step : ∀ s l e, I s l → M.Enabled s e → I (M.next s e) (l ++ f s e))
    {es : List ε} (h : M.Valid es) : I (M.run es) (M.observe f es) := by
  induction es using List.reverseRecOn with
  | nil => exact start
  | append_singleton es e ih =>
    obtain ⟨hv, he⟩ := (valid_concat es e).mp h
    rw [run_concat, observe_concat]
    exact step _ _ e (ih hv) he

/-- An invariant needs its steps only where the run meets the side condition `C`. -/
theorem invariant_along {I : σ → Prop} (start : I M.initial)
    (step : ∀ s e, I s → M.Enabled s e → C s e → I (M.next s e))
    {es : List ε} (h : M.Valid es) (hc : M.Along C es) : I (M.run es) := by
  induction es using List.reverseRecOn with
  | nil => exact start
  | append_singleton es e ih =>
    obtain ⟨hv, he⟩ := (valid_concat es e).mp h
    obtain ⟨hc, hce⟩ := (along_concat es e).mp hc
    rw [run_concat]
    exact step _ e (ih hv hc) he hce

theorem invariant {I : σ → Prop} (start : I M.initial)
    (step : ∀ s e, I s → M.Enabled s e → I (M.next s e))
    {es : List ε} (h : M.Valid es) : I (M.run es) :=
  invariant_along start (fun s e hs he _ => step s e hs he) h h

/-- What holds at some point of a run and survives every later step holds from there on. -/
theorem persists {P : σ → Prop} {es fs : List ε} (h : M.Valid (es ++ fs)) (start : P (M.run es))
    (step : ∀ gs e, M.Valid gs → M.Enabled (M.run gs) e → P (M.run gs) →
      P (M.next (M.run gs) e)) : P (M.run (es ++ fs)) := by
  induction fs using List.reverseRecOn with
  | nil =>
    rw [List.append_nil]
    exact start
  | append_singleton fs e ih =>
    rw [← List.append_assoc] at h ⊢
    obtain ⟨hv, he⟩ := (valid_concat _ e).mp h
    rw [run_concat]
    exact step _ e hv he (ih hv)

/-- Where each step that `paid` does not name takes something from a potential to which the others
add at most `c`, there are not many more of the former than of the latter. -/
theorem amortized (I : σ → Prop) (potential : σ → ℕ) (paid : ε → Bool) (c : ℕ)
    (start : I M.initial) (keep : ∀ s e, I s → M.Enabled s e → I (M.next s e))
    (free : ∀ s e, I s → M.Enabled s e → paid e = false → potential (M.next s e) < potential s)
    (charge : ∀ s e, I s → M.Enabled s e → paid e = true →
      potential (M.next s e) ≤ potential s + c)
    {es : List ε} (h : M.Valid es) :
    es.countP (fun e => !paid e) + potential (M.run es) ≤
      potential M.initial + c * es.countP paid := by
  induction es using List.reverseRecOn with
  | nil => simp
  | append_singleton es e ih =>
    obtain ⟨hv, he⟩ := (valid_concat es e).mp h
    have hinv := invariant start keep hv
    have hle := ih hv
    rw [run_concat, List.countP_append, List.countP_append, List.countP_singleton,
      List.countP_singleton]
    cases hp : paid e with
    | false =>
      have := free _ e hinv he hp
      simp only [Bool.not_false, if_true, Bool.false_eq_true, if_false, Nat.add_zero]
      omega
    | true =>
      have := charge _ e hinv he hp
      simp only [Bool.not_true, if_true, Bool.false_eq_true, if_false, Nat.add_zero,
        Nat.mul_add, Nat.mul_one]
      omega

/-- An invariant that steps meeting `C` keep, and that makes the next step meet `D`, turns `C` along
a run into `D` along it. -/
theorem along_of_invariant {I : σ → Prop} (start : I M.initial)
    (step : ∀ s e, I s → M.Enabled s e → C s e → I (M.next s e))
    (safe : ∀ s e, I s → M.Enabled s e → D s e)
    {es : List ε} (h : M.Valid es) (hc : M.Along C es) : M.Along D es := by
  induction es using List.reverseRecOn with
  | nil => trivial
  | append_singleton es e ih =>
    obtain ⟨hv, he⟩ := (valid_concat es e).mp h
    obtain ⟨hc, -⟩ := (along_concat es e).mp hc
    exact (along_concat es e).mpr ⟨ih hv hc, safe _ e (invariant_along start step hv hc) he⟩

/-- A property of states that each step of a run that meets `E` keeps exactly when it meets `C` says
that all the steps so far did. -/
theorem along_iff_within {P : σ → Prop} {E : σ → ε → Prop} (start : P M.initial)
    (step : ∀ es e, M.Valid es → M.Along E es → M.Enabled (M.run es) e →
      (P (M.next (M.run es) e) ↔ P (M.run es) ∧ C (M.run es) e))
    {es : List ε} (h : M.Valid es) (hE : M.Along E es) : M.Along C es ↔ P (M.run es) := by
  induction es using List.reverseRecOn with
  | nil => exact iff_of_true trivial start
  | append_singleton es e ih =>
    obtain ⟨hv, he⟩ := (valid_concat es e).mp h
    obtain ⟨hE, -⟩ := (along_concat es e).mp hE
    rw [along_concat, run_concat, step es e hv hE he, ih hv hE]

theorem along_iff {P : σ → Prop} (start : P M.initial)
    (step : ∀ es e, M.Valid es → M.Enabled (M.run es) e →
      (P (M.next (M.run es) e) ↔ P (M.run es) ∧ C (M.run es) e))
    {es : List ε} (h : M.Valid es) : M.Along C es ↔ P (M.run es) :=
  along_iff_within start (fun es e hv _ he => step es e hv he) h h

/-- Conditions that agree at every step of a run that meets `E` agree on the run. -/
theorem along_congr {E : σ → ε → Prop}
    (step : ∀ es e, M.Valid es → M.Along E es → M.Enabled (M.run es) e →
      (C (M.run es) e ↔ D (M.run es) e))
    {es : List ε} (h : M.Valid es) (hE : M.Along E es) : M.Along C es ↔ M.Along D es := by
  induction es using List.reverseRecOn with
  | nil => exact Iff.rfl
  | append_singleton es e ih =>
    obtain ⟨hv, he⟩ := (valid_concat es e).mp h
    obtain ⟨hE, -⟩ := (along_concat es e).mp hE
    rw [along_concat, along_concat, ih hv hE, step es e hv hE he]

/-- An invariant that steps meeting `C` keep, under which `D` says the same as `C` of a step. -/
theorem along_iff_of_invariant {I : σ → Prop} (start : I M.initial)
    (step : ∀ s e, I s → M.Enabled s e → C s e → I (M.next s e))
    (same : ∀ s e, I s → M.Enabled s e → (D s e ↔ C s e))
    {es : List ε} (h : M.Valid es) : M.Along D es ↔ M.Along C es := by
  induction es using List.reverseRecOn with
  | nil => exact Iff.rfl
  | append_singleton es e ih =>
    obtain ⟨hv, he⟩ := (valid_concat es e).mp h
    rw [along_concat, along_concat, ih hv]
    apply and_congr_right
    intro hc
    exact same _ e (invariant_along start step hv hc) he

/-- The last state is one of those reached. -/
theorem reached_run {P : σ → Prop} (start : P M.initial) {es : List ε}
    (h : M.Along (fun s e => P (M.next s e)) es) : P (M.run es) := by
  induction es using List.reverseRecOn with
  | nil => exact start
  | append_singleton es e =>
    rw [run_concat]
    exact ((along_concat es e).mp h).2

/-- If each step from a state with `P` leads to one exactly when it meets `C`, then all the
states of a run have `P` exactly when all its steps meet `C`. -/
theorem along_iff_reached {P : σ → Prop} (start : P M.initial)
    (step : ∀ es e, M.Valid es → M.Enabled (M.run es) e → P (M.run es) →
      (P (M.next (M.run es) e) ↔ C (M.run es) e))
    {es : List ε} (h : M.Valid es) : M.Along C es ↔ M.Along (fun s e => P (M.next s e)) es := by
  induction es using List.reverseRecOn with
  | nil => exact Iff.rfl
  | append_singleton es e ih =>
    obtain ⟨hv, he⟩ := (valid_concat es e).mp h
    rw [along_concat, along_concat, ih hv]
    exact and_congr_right fun hp => (step es e hv he (reached_run start hp)).symm

end Machine

end Execution
