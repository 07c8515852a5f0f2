import Mathlib.Data.List.Basic
import Mathlib.Data.List.Nodup
import Mathlib.Tactic.Common

/-! # Singly linked lists
The nodes that a walk visits, as a list. `next` says where the link of each node leads;
how nodes are stored, what else they hold and what becomes of unlinked ones is left open. -/
namespace LinkedList

universe u

variable {A : Type u}

/-- From `p` the links lead through the nodes `l`, in this order, to `q`. -/
def Segment (next : A → Option A) : Option A → List A → Option A → Prop
  | p, [], q => p = q
  | p, a :: l, q => p = some a ∧ Segment next (next a) l q

/-- The list that starts at `p` and ends in a null link. -/
def Chain (next : A → Option A) (p : Option A) (l : List A) : Prop := Segment next p l none

variable {next next' : A → Option A} {p q : Option A} {l m : List A} {a b c : A}

@[simp] theorem segment_nil : Segment next p [] q ↔ p = q := Iff.rfl

@[simp] theorem segment_cons :
    Segment next p (a :: l) q ↔ p = some a ∧ Segment next (next a) l q := Iff.rfl

@[simp] theorem chain_nil : Chain next p [] ↔ p = none := Iff.rfl

@[simp] theorem chain_cons : Chain next p (a :: l) ↔ p = some a ∧ Chain next (next a) l := Iff.rfl

theorem segment_append :
    Segment next p (l ++ m) q ↔ ∃ r, Segment next p l r ∧ Segment next r m q := by
  induction l generalizing p with
  | nil => simp
  | cons a l ih => simp only [List.cons_append, segment_cons, ih, and_assoc, exists_and_left]

theorem Segment.congr (h : Segment next p l q) (heq : ∀ a ∈ l, next' a = next a) :
    Segment next' p l q := by
  induction l generalizing p with
  | nil => exact h
  | cons a l ih =>
    obtain ⟨hp, hl⟩ := h
    refine ⟨hp, ?_⟩
    rw [heq a List.mem_cons_self]
    exact ih hl fun b hb => heq b (List.mem_cons_of_mem a hb)

theorem Chain.congr (h : Chain next p l) (heq : ∀ a ∈ l, next' a = next a) : Chain next' p l :=
  Segment.congr h heq

theorem Chain.head (h : Chain next p l) : p = l.head? := by
  cases l with
  | nil => exact h
  | cons a l => exact h.1

/-- The list at a node begins with it. -/
theorem Chain.cons (h : Chain next (some a) l) : ∃ m, l = a :: m := by
  cases l with
  | nil => cases h
  | cons b m =>
    obtain rfl := Option.some.inj h.1
    exact ⟨m, rfl⟩

/-- What follows a part of the list is where its last link leads. -/
theorem chain_append : Chain next p (l ++ m) ↔ ∃ r, Segment next p l r ∧ Chain next r m :=
  segment_append

theorem Chain.link (h : Chain next p (l ++ a :: m)) : next a = m.head? := by
  obtain ⟨_, _, hm⟩ := chain_append.mp h
  exact Chain.head hm.2

/-- One pointer starts one list. -/
theorem Chain.unique (h : Chain next p l) (h' : Chain next p m) : l = m := by
  induction l generalizing p m with
  | nil =>
    cases m with
    | nil => rfl
    | cons b m => cases h.symm.trans h'.1
  | cons a l ih =>
    cases m with
    | nil => cases h'.symm.trans h.1
    | cons b m =>
      obtain ⟨ha, hl⟩ := h
      obtain ⟨hb, hm⟩ := h'
      obtain rfl := Option.some.inj (ha.symm.trans hb)
      rw [ih hl hm]

/-- A list that ends cannot pass the same node twice. -/
theorem Chain.nodup (h : Chain next p l) : l.Nodup := by
  induction l generalizing p with
  | nil => exact List.nodup_nil
  | cons a l ih =>
    have hl : Chain next (next a) l := h.2
    refine List.nodup_cons.mpr ⟨fun ha => ?_, ih hl⟩
    obtain ⟨l₁, l₂, rfl⟩ := List.append_of_mem ha
    obtain ⟨_, _, rfl, htail⟩ := chain_append.mp hl
    -- from `a` the walk would go on both with and without the part before its repetition
    have hlen := congrArg List.length (hl.unique htail)
    simp only [List.length_append, List.length_cons] at hlen
    omega

/-! ## Changing the links -/

theorem Chain.push (h : Chain next p l) (ha : next' a = p) (hrest : ∀ b ∈ l, next' b = next b) :
    Chain next' (some a) (a :: l) := by
  refine ⟨rfl, ?_⟩
  rw [ha]
  exact h.congr hrest

/-- The node after `b` is taken out by linking `b` to its successor. -/
theorem Chain.unlink (h : Chain next p (l ++ b :: c :: m)) (hb : next' b = next c)
    (hrest : ∀ a, a ≠ b → next' a = next a) : Chain next' p (l ++ b :: m) := by
  obtain ⟨hl, hbm⟩ := List.nodup_append'.mp h.nodup |>.2
  obtain ⟨r, hr, rfl, hc, hm⟩ := chain_append.mp h
  have hdisj : ∀ a ∈ l, a ≠ b := fun a ha heq => hbm ha (heq ▸ List.mem_cons_self)
  refine chain_append.mpr ⟨some b, hr.congr fun a ha => hrest a (hdisj a ha), rfl, ?_⟩
  rw [hb]
  refine hm.congr fun a ha => hrest a ?_
  rintro rfl
  exact (List.nodup_cons.mp hl).1 (List.mem_cons_of_mem c ha)

/-- The first node is taken out by moving the head to its successor. -/
theorem Chain.unlink_head (h : Chain next p (c :: m)) : Chain next (next c) m := h.2

theorem Chain.append (h : Chain next p (l ++ [b])) (hb : next' b = some a) (ha : next' a = none)
    (hrest : ∀ c ∈ l, next' c = next c) : Chain next' p (l ++ [b, a]) := by
  obtain ⟨r, hr, hrb, _⟩ := chain_append.mp h
  refine chain_append.mpr ⟨r, hr.congr hrest, hrb, ?_⟩
  rw [hb]
  exact ⟨rfl, ha⟩

end LinkedList
