import LinuxLabs.Execution
import LinuxLabs.KeyedTable

/-! # Accesses to a counted array
An array has a size, and a counter says how many of its cells are in use. The loops over the
cells in use are the lists of their accesses, each with the value of the counter at that time. -/
namespace ArrayAccess

open Execution KeyedTable

universe u v w

structure Access where
  index : ℤ
  stores : Bool
  count : ℕ
  deriving DecidableEq

/-- The access is inside the array, and a load is one of a cell in use. -/
structure Access.Inside (size : ℕ) (a : Access) : Prop where
  count : a.count ≤ size
  low : 0 ≤ a.index
  high : a.index < size
  used : a.stores = false → a.index < a.count

section

variable {α : Type u} {κ : Type v} [DecidableEq κ]

/-! The cells in use are given by the list of what they hold. -/

def load (l : List α) (i : ℕ) : Access := ⟨i, false, l.length⟩

def store (l : List α) (i : ℕ) : Access := ⟨i, true, l.length⟩

/-- A loop over the first `n` cells. -/
def loads (l : List α) (n : ℕ) : List Access := (List.range n).map (load l)

/-- A loop over the cells in use. -/
def sweep (l : List α) : List Access := loads l l.length

/-- The loop that ends at the first record of a key. -/
def search (key : α → κ) (k : κ) (l : List α) : List Access :=
  match slot key k l with
  | none => sweep l
  | some i => loads l (i + 1)

/-- `a[i] = a[count - 1]`. -/
def moveLast (l : List α) (i : ℕ) : List Access := [⟨l.length - 1, false, l.length⟩, store l i]

/-- The loop that overwrites the first record of a key with the last one. -/
def removal (key : α → κ) (k : κ) (l : List α) : List Access :=
  search key k l ++
    match slot key k l with
    | none => []
    | some i => moveLast l i

/-- `a[count] = ...`. -/
def append (l : List α) : Access := store l l.length

def AllInside (size : ℕ) (as : List Access) : Prop := ∀ a ∈ as, a.Inside size

variable {l : List α} {key : α → κ} {k : κ} {size i n : ℕ} {as bs : List Access}

@[simp] theorem allInside_nil : AllInside size [] := by simp [AllInside]

@[simp] theorem allInside_cons {a : Access} :
    AllInside size (a :: as) ↔ a.Inside size ∧ AllInside size as := by
  simp [AllInside]

@[simp] theorem allInside_append :
    AllInside size (as ++ bs) ↔ AllInside size as ∧ AllInside size bs := by
  simp [AllInside, or_imp, forall_and]

theorem load_inside (hl : l.length ≤ size) (hi : i < l.length) : (load l i).Inside size :=
  ⟨hl, by simp [load], by simp only [load]; omega, fun _ => by simp only [load]; omega⟩

theorem store_inside (hl : l.length ≤ size) (hi : i < l.length) : (store l i).Inside size :=
  ⟨hl, by simp [store], by simp only [store]; omega, by simp [store]⟩

theorem loads_inside (hl : l.length ≤ size) (hn : n ≤ l.length) : AllInside size (loads l n) := by
  intro a ha
  obtain ⟨i, hi, rfl⟩ := List.mem_map.mp ha
  apply load_inside hl
  have := List.mem_range.mp hi
  omega

theorem sweep_inside (hl : l.length ≤ size) : AllInside size (sweep l) := loads_inside hl le_rfl

theorem search_inside (hl : l.length ≤ size) : AllInside size (search key k l) := by
  unfold search
  split
  · exact sweep_inside hl
  · next i hslot =>
    obtain ⟨hi, -⟩ := slot_eq_some hslot
    exact loads_inside hl hi

theorem removal_inside (hl : l.length ≤ size) : AllInside size (removal key k l) := by
  rw [removal, allInside_append]
  refine ⟨search_inside hl, ?_⟩
  split
  · exact allInside_nil
  · next i hslot =>
    obtain ⟨hi, -⟩ := slot_eq_some hslot
    have hlast : Access.Inside size ⟨l.length - 1, false, l.length⟩ :=
      ⟨hl, by dsimp only; omega, by dsimp only; omega, fun _ => by dsimp only; omega⟩
    simp [moveLast, hlast, store_inside hl hi]

/-- A record goes behind the last one only where the array has a cell left. -/
theorem append_inside_iff (hl : l.length ≤ size) :
    (append l).Inside size ↔ l.length < size := by
  constructor
  · intro h
    have hhigh := h.high
    simp only [append, store] at hhigh
    omega
  · intro hlt
    exact ⟨hl, by simp [append, store], by simp only [append, store]; omega, by
      simp [append, store]⟩

theorem length_removeAt (l : List α) (i : ℕ) : (removeAt l i).length ≤ l.length := by
  unfold removeAt
  split <;> simp

theorem length_remove (key : α → κ) (k : κ) (l : List α) :
    (KeyedTable.remove key k l).length ≤ l.length := by
  unfold KeyedTable.remove
  split
  · exact le_rfl
  · apply length_removeAt

theorem length_update (key : α → κ) (k : κ) (f : α → α) (l : List α) :
    (update key k f l).length = l.length := by
  unfold update
  split
  · rfl
  · exact List.length_modify ..

end

/-! ## Along a run -/

variable {σ : Type u} {ε : Type v} {M : Machine σ ε} {size : ℕ} {count : σ → ℕ}
  {accesses : σ → ε → List Access}

/-- The counter stays in its range, and every access is inside. -/
structure Bounded (M : Machine σ ε) (size : ℕ) (count : σ → ℕ) (accesses : σ → ε → List Access)
    (s : σ) (e : ε) : Prop where
  before : count s ≤ size
  after : count (M.next s e) ≤ size
  inside : AllInside size (accesses s e)

/-- A step that adds a record is bounded exactly when the array has a cell left. -/
theorem bounded_append_iff {α : Type w} {s : σ} {e : ε} (l : List α) (hs : count s = l.length)
    (hnext : count (M.next s e) = l.length + 1) (hfirst : append l ∈ accesses s e)
    (hrest : (append l).Inside size → l.length + 1 ≤ size → AllInside size (accesses s e))
    (h : count s ≤ size) : Bounded M size count accesses s e ↔ l.length < size := by
  have hl : l.length ≤ size := hs ▸ h
  constructor
  · intro hb
    exact (append_inside_iff hl).mp (hb.inside _ hfirst)
  · intro hroom
    refine ⟨h, ?_, hrest ((append_inside_iff hl).mpr hroom) hroom⟩
    rw [hnext]
    exact hroom

theorem along_bounded_iff {room : σ → ε → Prop} (start : count M.initial ≤ size)
    (step : ∀ s e, count s ≤ size → (Bounded M size count accesses s e ↔ room s e))
    {es : List ε} (h : M.Valid es) :
    M.Along (Bounded M size count accesses) es ↔ M.Along room es :=
  Machine.along_iff_of_invariant (I := fun s => count s ≤ size) start
    (fun s e hs _ hroom => ((step s e hs).mpr hroom).after) (fun s e hs _ => step s e hs) h

/-- Arrivals that each take a new number. -/
def arriving (arrive : ℕ → ε) (first n : ℕ) : List ε :=
  (List.range n).map fun i => arrive (first + i)

theorem arriving_succ (arrive : ℕ → ε) (first n : ℕ) :
    arriving arrive first (n + 1) = arriving arrive first n ++ [arrive (first + n)] := by
  simp [arriving, List.range_succ]

/-- They fill the array one by one. -/
theorem arrivals (arrive : ℕ → ε) (used : σ → Finset ℕ) (first : ℕ)
    (below : ∀ fd ∈ used M.initial, fd < first)
    (enabled : ∀ s fd, fd ∉ used s → M.Enabled s (arrive fd))
    (uses : ∀ s fd, used (M.next s (arrive fd)) = insert fd (used s))
    (counts : ∀ s fd, count (M.next s (arrive fd)) = count s + 1) (n : ℕ) :
    M.Valid (arriving arrive first n) ∧
      count (M.run (arriving arrive first n)) = count M.initial + n ∧
      ∀ fd ∈ used (M.run (arriving arrive first n)), fd < first + n := by
  induction n with
  | zero => exact ⟨trivial, rfl, below⟩
  | succ n ih =>
    obtain ⟨hv, hcount, hused⟩ := ih
    have hnew : first + n ∉ used (M.run (arriving arrive first n)) :=
      fun h => absurd (hused _ h) (by omega)
    rw [arriving_succ, Machine.valid_concat, Machine.run_concat, counts, hcount, uses]
    refine ⟨⟨hv, enabled _ _ hnew⟩, by omega, fun fd hfd => ?_⟩
    rcases Finset.mem_insert.mp hfd with rfl | hfd
    · omega
    · have := hused fd hfd
      omega

/-- More of them than the array has cells take it over its end. -/
theorem arrivals_overrun (M : Machine σ ε) (count : σ → ℕ) (accesses : σ → ε → List Access)
    (arrive : ℕ → ε) (used : σ → Finset ℕ) (first : ℕ)
    (below : ∀ fd ∈ used M.initial, fd < first)
    (enabled : ∀ s fd, fd ∉ used s → M.Enabled s (arrive fd))
    (uses : ∀ s fd, used (M.next s (arrive fd)) = insert fd (used s))
    (counts : ∀ s fd, count (M.next s (arrive fd)) = count s + 1)
    (start : count M.initial = 0) {n : ℕ} (hn : size < n) :
    M.Valid (arriving arrive first n) ∧
      ¬ M.Along (Bounded M size count accesses) (arriving arrive first n) := by
  obtain ⟨hv, hcount, -⟩ := arrivals arrive used first below enabled uses counts n
  refine ⟨hv, fun h => ?_⟩
  have hle := Machine.reached_run (P := fun s => count s ≤ size) (by omega)
    (h.imp fun _ _ hb => hb.after)
  omega

end ArrayAccess
