import Mathlib.Data.Finset.Basic
import Mathlib.Data.List.Basic
import Mathlib.Data.List.Nodup
import Mathlib.Data.List.Perm.Basic
import Mathlib.Tactic.Common

/-! # A compact array searched by key
Records sit in an array in no particular order; a scan from the front finds the first
record of a key, a new record goes behind the last one, and a removed record is
overwritten by the last one. While the keys are distinct the order is irrelevant:
such an array is a finite map, and these are its operations. -/
namespace KeyedTable

universe u v

variable {α : Type u} {κ : Type v} [DecidableEq κ] (key : α → κ)

def slot (k : κ) (l : List α) : Option ℕ := l.findIdx? fun a => key a = k

def lookup (k : κ) (l : List α) : Option α := l.find? fun a => key a = k

/-- A store through the pointer to the first record of key `k`. -/
def update (k : κ) (f : α → α) (l : List α) : List α :=
  match slot key k l with
  | none => l
  | some i => l.modify i f

/-- `a[i] = a[count - 1]; count--`. -/
def removeAt (l : List α) (i : ℕ) : List α :=
  match l.getLast? with
  | none => l
  | some last => (l.set i last).dropLast

def remove (k : κ) (l : List α) : List α :=
  match slot key k l with
  | none => l
  | some i => removeAt l i

def Distinct (l : List α) : Prop := (l.map key).Nodup

/-- What a scan to the end leaves in its pointer, and a store through that pointer. -/
def lookupLast (k : κ) (l : List α) : Option α := lookup key k l.reverse

def updateLast (k : κ) (f : α → α) (l : List α) : List α := (update key k f l.reverse).reverse

variable {key}

theorem slot_eq_none {k : κ} {l : List α} : slot key k l = none ↔ k ∉ l.map key := by
  simp [slot, List.findIdx?_eq_none_iff]

theorem slot_eq_some {k : κ} {l : List α} {i : ℕ} (h : slot key k l = some i) :
    ∃ hi : i < l.length, key l[i] = k := by
  obtain ⟨hi, hk, _⟩ := List.findIdx?_eq_some_iff_getElem.mp h
  exact ⟨hi, by simpa using hk⟩

theorem lookup_eq_none {k : κ} {l : List α} : lookup key k l = none ↔ k ∉ l.map key := by
  simp [lookup]

theorem lookup_cons {k : κ} {a : α} {l : List α} :
    lookup key k (a :: l) = if key a = k then some a else lookup key k l := by
  by_cases h : key a = k <;> simp [lookup, h]

theorem key_of_lookup {k : κ} {l : List α} {a : α} (h : lookup key k l = some a) : key a = k := by
  simpa using List.find?_some h

theorem mem_of_lookup {k : κ} {l : List α} {a : α} (h : lookup key k l = some a) : a ∈ l :=
  List.mem_of_find?_eq_some h

omit [DecidableEq κ] in
theorem Distinct.eq_of_key {l : List α} (h : Distinct key l) {a b : α} (ha : a ∈ l) (hb : b ∈ l)
    (hk : key a = key b) : a = b :=
  List.inj_on_of_nodup_map h ha hb hk

/-- With distinct keys the scan finds the one record of the key, wherever it sits. -/
theorem lookup_eq_some {l : List α} (h : Distinct key l) {k : κ} {a : α} :
    lookup key k l = some a ↔ a ∈ l ∧ key a = k := by
  constructor
  · intro hl
    exact ⟨mem_of_lookup hl, key_of_lookup hl⟩
  · rintro ⟨ha, rfl⟩
    cases hl : lookup key (key a) l with
    | none => exact absurd (List.mem_map_of_mem ha) (lookup_eq_none.mp hl)
    | some b => rw [h.eq_of_key (mem_of_lookup hl) ha (key_of_lookup hl)]

/-- With distinct keys a record is the only one of its key. -/
theorem filter_key {l : List α} (h : Distinct key l) {a : α} (ha : a ∈ l) :
    l.filter (fun b => key b = key a) = [a] := by
  induction l with
  | nil => cases ha
  | cons b l ih =>
    obtain ⟨hb, hl⟩ := List.nodup_cons.mp h
    rcases List.mem_cons.mp ha with rfl | ha
    · have hnil : l.filter (fun c => key c = key a) = [] := by
        rw [List.filter_eq_nil_iff]
        intro c hc hk
        exact hb (List.mem_map.mpr ⟨c, hc, of_decide_eq_true hk⟩)
      simp [hnil]
    · have hne : ¬ key b = key a := fun hk => hb (hk ▸ List.mem_map_of_mem ha)
      simpa [hne] using ih hl ha

theorem lookup_perm {l l' : List α} (p : l.Perm l') (h : Distinct key l) (k : κ) :
    lookup key k l = lookup key k l' := by
  have h' : Distinct key l' := (p.map key).nodup_iff.mp h
  ext a
  rw [lookup_eq_some h, lookup_eq_some h', p.mem_iff]

private theorem set_perm {l : List α} {i : ℕ} (hi : i < l.length) (a : α) :
    (l.set i a).Perm (a :: l.eraseIdx i) := by
  have h := List.getElem_cons_eraseIdx_perm (l := l.set i a) (n := i) (by simpa using hi)
  rw [List.getElem_set_self, List.eraseIdx_set_eq] at h
  exact h.symm

/-- Moving the last record over the removed one permutes the others. -/
theorem removeAt_perm {l : List α} {i : ℕ} (hi : i < l.length) :
    (l[i] :: removeAt l i).Perm l := by
  rcases List.eq_nil_or_concat' l with rfl | ⟨front, last, rfl⟩
  · simp at hi
  by_cases hf : i < front.length
  · have hr : removeAt (front ++ [last]) i = front.set i last := by
      simp [removeAt, hf]
    have hg : (front ++ [last])[i] = front[i] := List.getElem_append_left hf
    rw [hr, hg]
    calc (front[i] :: front.set i last).Perm (front[i] :: last :: front.eraseIdx i) :=
          (set_perm hf last).cons _
      _ |>.Perm (last :: front[i] :: front.eraseIdx i) := .swap _ _ _
      _ |>.Perm (last :: front) := (List.getElem_cons_eraseIdx_perm hf).cons _
      _ |>.Perm (front ++ [last]) := (List.perm_append_singleton _ _).symm
  · obtain rfl : i = front.length := by simp at hi; omega
    have hr : removeAt (front ++ [last]) front.length = front := by simp [removeAt]
    rw [hr, List.getElem_concat_length rfl]
    exact (List.perm_append_singleton _ _).symm

section Append

variable {l : List α} {a : α}

theorem lookup_append (ha : key a ∉ l.map key) (k : κ) :
    lookup key k (l ++ [a]) = if k = key a then some a else lookup key k l := by
  split
  · subst k
    have hn : lookup key (key a) l = none := lookup_eq_none.mpr ha
    simp only [lookup] at hn
    simp [lookup, List.find?_append, hn]
  · next hk =>
    have : ¬ key a = k := fun h => hk h.symm
    simp [lookup, List.find?_append, this]

end Append

section Update

variable {l : List α} {k : κ} {f : α → α}

theorem update_cons (a : α) :
    update key k f (a :: l) = if key a = k then f a :: l else a :: update key k f l := by
  simp only [update, slot, List.findIdx?_cons, decide_eq_true_eq]
  by_cases h : key a = k
  · simp [h]
  · simp only [h, if_false]
    cases List.findIdx? (fun b => decide (key b = k)) l <;> simp

theorem update_eq_self (h : ∀ a, lookup key k l = some a → f a = a) : update key k f l = l := by
  induction l with
  | nil => rfl
  | cons a l ih =>
    rw [update_cons]
    by_cases ha : key a = k
    · rw [if_pos ha, h a (by rw [lookup_cons, if_pos ha])]
    · rw [if_neg ha, ih fun b hb => h b (by rw [lookup_cons, if_neg ha, hb])]

theorem map_key_update (hf : ∀ a, key (f a) = key a) : (update key k f l).map key = l.map key := by
  unfold update
  split
  · rfl
  · next i _ =>
    apply List.ext_getElem (by simp)
    intro j _ _
    simp only [List.getElem_map, List.getElem_modify]
    split
    · exact hf _
    · rfl

theorem Distinct.update (h : Distinct key l) (hf : ∀ a, key (f a) = key a) :
    Distinct key (update key k f l) := by
  rw [Distinct, map_key_update hf]
  exact h

theorem lookup_update (hf : ∀ a, key (f a) = key a) (k' : κ) :
    lookup key k' (update key k f l) =
      if k' = k then (lookup key k l).map f else lookup key k' l := by
  induction l with
  | nil => simp [update, slot, lookup]
  | cons a l ih =>
    rw [update_cons]
    by_cases ha : key a = k
    · by_cases hk : k' = k
      · subst hk
        simp [ha, lookup_cons, hf]
      · have hn : ¬ k = k' := fun h => hk h.symm
        simp [ha, hk, lookup_cons, hf, hn]
    · rw [if_neg ha, lookup_cons, lookup_cons, lookup_cons, if_neg ha, ih]
      by_cases hk : k' = k
      · rw [if_pos hk, if_pos hk, if_neg (fun h => ha (h.trans hk))]
      · rw [if_neg hk, if_neg hk]

end Update

section Remove

variable {l : List α} {k : κ}

theorem remove_of_notMem (h : k ∉ l.map key) : remove key k l = l := by
  simp [remove, slot_eq_none.mpr h]

/-- Removing a present key takes out its record and permutes the rest. -/
theorem remove_perm (h : k ∈ l.map key) :
    ∃ a, key a = k ∧ (a :: remove key k l).Perm l := by
  cases hs : slot key k l with
  | none => exact absurd h (slot_eq_none.mp hs)
  | some i =>
    obtain ⟨hi, hk⟩ := slot_eq_some hs
    refine ⟨l[i], hk, ?_⟩
    simp only [remove, hs]
    exact removeAt_perm hi

theorem mem_of_mem_remove {a : α} (h : a ∈ KeyedTable.remove key k l) : a ∈ l := by
  by_cases hk : k ∈ l.map key
  · obtain ⟨b, -, hp⟩ := remove_perm hk
    exact hp.mem_iff.mp (List.mem_cons_of_mem b h)
  · rwa [remove_of_notMem hk] at h

theorem Distinct.remove (h : Distinct key l) (k : κ) : Distinct key (remove key k l) := by
  by_cases hk : k ∈ l.map key
  · obtain ⟨a, _, hp⟩ := remove_perm hk
    exact ((hp.map key).nodup_iff.mpr h).of_cons
  · rw [remove_of_notMem hk]
    exact h

theorem lookup_remove (h : Distinct key l) (k k' : κ) :
    lookup key k' (KeyedTable.remove key k l) = if k' = k then none else lookup key k' l := by
  by_cases hk : k ∈ l.map key
  · obtain ⟨a, rfl, hp⟩ := remove_perm hk
    have hd : Distinct key (a :: KeyedTable.remove key (key a) l) := (hp.map key).nodup_iff.mpr h
    rw [← lookup_perm hp hd]
    split
    · subst k'
      exact lookup_eq_none.mpr (List.nodup_cons.mp hd).1
    · next hk' =>
      have : ¬ key a = k' := fun e => hk' e.symm
      simp [lookup, this]
  · rw [remove_of_notMem hk]
    split
    · subst k'
      exact lookup_eq_none.mpr hk
    · rfl

theorem mem_keys_remove (h : Distinct key l) (k' : κ) :
    k' ∈ (KeyedTable.remove key k l).map key ↔ k' ≠ k ∧ k' ∈ l.map key := by
  have hl := lookup_remove h k k'
  rw [← not_iff_not, not_and_or, not_not, ← lookup_eq_none, ← lookup_eq_none, hl]
  by_cases hk : k' = k <;> simp [hk]

end Remove

section Last

variable {l : List α} {k : κ} {f : α → α}

/-- While the keys are distinct, the last record of a key is the first. -/
theorem lookupLast_eq (h : Distinct key l) (k : κ) : lookupLast key k l = lookup key k l :=
  (lookup_perm (List.reverse_perm l).symm h k).symm

theorem update_eq_map (h : Distinct key l) :
    update key k f l = l.map fun a => if key a = k then f a else a := by
  induction l with
  | nil => rfl
  | cons a l ih =>
    obtain ⟨ha, hl⟩ := List.nodup_cons.mp h
    rw [update_cons, List.map_cons]
    by_cases hk : key a = k
    · have hid : l.map (fun b => if key b = k then f b else b) = l := by
        refine (List.map_congr_left fun b hb => if_neg fun hb' => ha ?_).trans (List.map_id l)
        exact List.mem_map.mpr ⟨b, hb, hb'.trans hk.symm⟩
      rw [if_pos hk, if_pos hk, hid]
    · rw [if_neg hk, if_neg hk, ih hl]

theorem updateLast_eq (h : Distinct key l) : updateLast key k f l = update key k f l := by
  have hr : Distinct key l.reverse := by
    rw [Distinct, List.map_reverse]
    exact List.nodup_reverse.mpr h
  rw [updateLast, update_eq_map hr, update_eq_map h, List.map_reverse, List.reverse_reverse]

end Last

/-! ## Keys in use -/

/-- The keys in a table are the ones in use, but for those reserved. -/
structure Lists (reserved : Finset κ) (ks : List κ) (used : Finset κ) : Prop where
  nodup : ks.Nodup
  mem : ∀ k, k ∈ ks ↔ k ∈ used ∧ k ∉ reserved
  reserve : reserved ⊆ used

section Lists

variable {reserved used : Finset κ} {ks ks' : List κ} {k : κ}

omit [DecidableEq κ] in
theorem Lists.fresh (h : Lists reserved ks used) (hk : k ∉ used) : k ∉ ks :=
  fun hm => hk ((h.mem k).mp hm).1

theorem Lists.insert (h : Lists reserved ks used) (hk : k ∉ used) :
    Lists reserved (ks ++ [k]) (Insert.insert k used) where
  nodup := by
    rw [← List.concat_eq_append]
    exact List.Nodup.concat (h.fresh hk) h.nodup
  mem j := by
    have hr : k ∉ reserved := fun hm => hk (h.reserve hm)
    rw [List.mem_append, List.mem_singleton, Finset.mem_insert, h.mem j]
    constructor
    · rintro (⟨ho, hj⟩ | rfl)
      · exact ⟨Or.inr ho, hj⟩
      · exact ⟨Or.inl rfl, hr⟩
    · rintro ⟨rfl | ho, hj⟩
      · exact Or.inr rfl
      · exact Or.inl ⟨ho, hj⟩
  reserve := h.reserve.trans (Finset.subset_insert _ _)

theorem Lists.erase (h : Lists reserved ks used) (hk : k ∉ reserved) (hnd : ks'.Nodup)
    (hmem : ∀ j, j ∈ ks' ↔ j ≠ k ∧ j ∈ ks) : Lists reserved ks' (used.erase k) where
  nodup := hnd
  mem j := by rw [hmem, h.mem, Finset.mem_erase, and_assoc]
  reserve j hj := Finset.mem_erase.mpr ⟨fun he => hk (he ▸ hj), h.reserve hj⟩

end Lists

/-- What is at a place after the record at one place was changed. -/
theorem modify_some {l : List α} {i k : ℕ} {f : α → α} {b : α}
    (h : (l.modify i f)[k]? = some b) : ∃ a, l[k]? = some a ∧ b = if i = k then f a else a := by
  rw [List.getElem?_modify] at h
  obtain ⟨a, ha, rfl⟩ := Option.map_eq_some_iff.mp h
  refine ⟨a, ha, ?_⟩
  split <;> rfl

theorem mem_modify {l : List α} {i : ℕ} {f : α → α} {b : α} (h : b ∈ l.modify i f) :
    ∃ k a, l[k]? = some a ∧ b = if i = k then f a else a := by
  obtain ⟨k, hk, rfl⟩ := List.mem_iff_getElem.mp h
  exact ⟨k, modify_some (List.getElem?_eq_getElem hk)⟩

/-- What all records have they keep, if the changed one does. -/
theorem forall_modify {P : α → Prop} {l : List α} (h : ∀ a ∈ l, P a) {i : ℕ} {f : α → α}
    (hf : ∀ a, l[i]? = some a → P a → P (f a)) : ∀ a ∈ l.modify i f, P a := by
  intro b hb
  obtain ⟨k, a, ha, rfl⟩ := mem_modify hb
  have hold := h a (List.mem_of_getElem? ha)
  split
  · next hik =>
    subst k
    exact hf a ha hold
  · exact hold

/-- A change of one record that keeps what `g` reads. -/
theorem map_modify {β : Type*} {g : α → β} {f : α → α} (hf : ∀ a, g (f a) = g a) (l : List α)
    (i : ℕ) : (l.modify i f).map g = l.map g := by
  refine List.ext_getElem? fun k => ?_
  rw [List.getElem?_map, List.getElem?_map, List.getElem?_modify]
  cases l[k]? with
  | none => rfl
  | some a =>
    refine congrArg some ?_
    split
    · exact hf a
    · rfl

/-- What is at a place after a new record went behind the last one. -/
theorem append_some {l : List α} {a b : α} {k : ℕ} (h : (l ++ [a])[k]? = some b) :
    l[k]? = some b ∨ k = l.length ∧ b = a := by
  rcases Nat.lt_or_ge k l.length with hlt | hge
  · rw [List.getElem?_append_left hlt] at h
    exact Or.inl h
  · rw [List.getElem?_append_right hge, List.getElem?_singleton] at h
    split at h
    · next h0 => exact Or.inr ⟨by omega, (Option.some.inj h).symm⟩
    · cases h

/-- In a linked list with distinct keys, unlinking the first node of a key unlinks them all. -/
theorem Distinct.eraseP_eq_filter {l : List α} (h : Distinct key l) (k : κ) :
    l.eraseP (fun a => key a = k) = l.filter (fun a => key a ≠ k) := by
  induction l with
  | nil => rfl
  | cons a l ih =>
    obtain ⟨ha, hl⟩ := List.nodup_cons.mp h
    by_cases hk : key a = k
    · rw [List.eraseP_cons_of_pos (by simpa using hk), List.filter_cons_of_neg (by simpa using hk)]
      refine (List.filter_eq_self.mpr fun b hb => ?_).symm
      have : key b ≠ k := fun hb' => ha (List.mem_map.mpr ⟨b, hb, hb'.trans hk.symm⟩)
      simpa using this
    · rw [List.eraseP_cons_of_neg (by simpa using hk), List.filter_cons_of_pos (by simpa using hk),
        ih hl]

end KeyedTable
