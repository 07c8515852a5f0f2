import LinuxLabs.CString
import Mathlib.Data.List.Infix

/-! # Reading lines into a buffer of one size
`fgets` ends a piece at a newline, where the buffer is full, or at the end of the input. -/
namespace LineInput

open CString (Byte newline)

def firstLine (input : List Byte) : List Byte :=
  input.takeWhile (· ≠ newline) ++ (input.dropWhile (· ≠ newline)).take 1

/-- The lines of an input, each with its newline, and what follows the last newline. -/
def lines : List Byte → List (List Byte)
  | [] => []
  | b :: input =>
    if b = newline then [b] :: lines input
    else
      match lines input with
      | [] => [[b]]
      | l :: ls => (b :: l) :: ls

/-- What `fgets(buf, size, stdin)` puts before the terminator, and the input it leaves. -/
def fgets (size : ℕ) (input : List Byte) : Option (List Byte × List Byte) :=
  match (firstLine input).take (size - 1) with
  | [] => none
  | b :: piece => some (b :: piece, input.drop (b :: piece).length)

/-- Calls of `fgets` one behind the other return these pieces and leave `rest`. -/
inductive Reads (size : ℕ) (input : List Byte) : List (List Byte) → List Byte → Prop where
  | nil : Reads size input [] input
  | concat {pieces piece rest rest'} : Reads size input pieces rest →
      fgets size rest = some (piece, rest') → Reads size input (pieces ++ [piece]) rest'

/-- A newline is at the end of the piece or nowhere in it. -/
def Line (piece : List Byte) : Prop := newline ∉ piece.dropLast

instance : DecidablePred Line := fun _ => inferInstanceAs (Decidable (_ ∉ _))

variable {size : ℕ} {input rest rest' piece : List Byte} {pieces : List (List Byte)}

theorem firstLine_initial (input : List Byte) : firstLine input <+: input := by
  have h := (List.prefix_append_right_inj (input.takeWhile (· ≠ newline))).mpr
    (List.take_prefix 1 (input.dropWhile (· ≠ newline)))
  rwa [List.takeWhile_append_dropWhile] at h

theorem firstLine_eq_nil (h : firstLine input = []) : input = [] := by
  obtain ⟨htake, hdrop⟩ := List.append_eq_nil_iff.mp h
  rw [← List.takeWhile_append_dropWhile (p := (· ≠ newline)) (l := input), htake]
  cases hd : input.dropWhile (· ≠ newline) with
  | nil => rfl
  | cons b later =>
    rw [hd] at hdrop
    cases hdrop

theorem line_firstLine (input : List Byte) : Line (firstLine input) := by
  have hinside : newline ∉ input.takeWhile (· ≠ newline) := by
    intro hm
    simpa using List.mem_takeWhile_imp hm
  unfold Line firstLine
  cases input.dropWhile (· ≠ newline) with
  | nil =>
    rw [List.take_nil, List.append_nil]
    exact fun hm => hinside (List.dropLast_subset _ hm)
  | cons b later =>
    rw [List.take_succ_cons, List.take_zero, List.dropLast_concat]
    exact hinside

theorem Line.initial (h : Line input) (hp : piece <+: input) : Line piece := by
  obtain ⟨later, rfl⟩ := hp
  intro hm
  apply h
  by_cases hl : later = []
  · rwa [hl, List.append_nil]
  · rw [List.dropLast_append_of_ne_nil hl]
    exact List.mem_append_left _ (List.dropLast_subset _ hm)

theorem Line.no_newline_before {u v : List Byte} (h : Line (u ++ newline :: v)) : v = [] := by
  by_contra hv
  apply h
  rw [List.dropLast_append_of_ne_nil (by simp), List.dropLast_cons_of_ne_nil hv]
  simp

theorem lines_cons (b : Byte) (input : List Byte) :
    lines (b :: input) =
      firstLine (b :: input) :: lines ((b :: input).drop (firstLine (b :: input)).length) := by
  induction input generalizing b with
  | nil => by_cases hb : b = newline <;> simp [lines, firstLine, hb]
  | cons c input ih =>
    by_cases hb : b = newline
    · simp [lines, firstLine, hb]
    · have hfirst : firstLine (b :: c :: input) = b :: firstLine (c :: input) := by
        simp [firstLine, hb]
      rw [lines, if_neg hb, ih c, hfirst]
      rfl

/-! ## One call -/

theorem fgets_eq (h : fgets size input = some (piece, rest)) :
    piece = (firstLine input).take (size - 1) ∧ piece ≠ [] ∧ rest = input.drop piece.length := by
  unfold fgets at h
  cases hp : (firstLine input).take (size - 1) with
  | nil =>
    rw [hp] at h
    cases h
  | cons b later =>
    rw [hp] at h
    obtain ⟨rfl, rfl⟩ := Prod.mk.inj (Option.some.inj h)
    exact ⟨rfl, List.cons_ne_nil _ _, rfl⟩

theorem fgets_some (h : fgets size input = some (piece, rest)) :
    input = piece ++ rest ∧ piece ≠ [] ∧ piece.length ≤ size - 1 ∧ Line piece := by
  obtain ⟨rfl, hne, rfl⟩ := fgets_eq h
  have hp := List.take_prefix (size - 1) (firstLine input)
  refine ⟨?_, hne, List.length_take_le _ _, (line_firstLine input).initial hp⟩
  exact List.prefix_iff_eq_append.mp (hp.trans (firstLine_initial input)) |>.symm

theorem fgets_none (hs : 2 ≤ size) : fgets size input = none ↔ input = [] := by
  constructor
  · intro h
    unfold fgets at h
    cases hp : (firstLine input).take (size - 1) with
    | nil =>
      rcases List.take_eq_nil_iff.mp hp with hz | hl
      · omega
      · exact firstLine_eq_nil hl
    | cons b later =>
      rw [hp] at h
      cases h
  · rintro rfl
    simp [fgets, firstLine]

/-- A line that fits is read whole. -/
theorem fgets_whole (h : fgets size input = some (piece, rest))
    (hfit : ∀ l ∈ lines input, l.length ≤ size - 1) : lines input = piece :: lines rest := by
  obtain ⟨hpiece, hne, hrest⟩ := fgets_eq h
  cases input with
  | nil => simp [firstLine, hpiece] at hne
  | cons b input =>
    rw [lines_cons] at hfit ⊢
    rw [List.take_of_length_le (hfit _ List.mem_cons_self)] at hpiece
    rw [hrest, hpiece]

/-! ## Many calls -/

/-- Nothing is lost between the calls. -/
theorem Reads.input_eq (h : Reads size input pieces rest) : input = pieces.flatten ++ rest := by
  induction h with
  | nil => rfl
  | concat _ hf ih =>
    obtain ⟨hr, -⟩ := fgets_some hf
    rw [ih, hr]
    simp

theorem Reads.length_le (h : Reads size input pieces rest) :
    pieces.length + rest.length ≤ input.length := by
  induction h with
  | nil => exact Nat.le_of_eq (Nat.zero_add _)
  | concat _ hf ih =>
    obtain ⟨rfl, hne, -⟩ := fgets_some hf
    have hpos := List.length_pos_iff.mpr hne
    rw [List.length_append] at ih ⊢
    simp only [List.length_singleton]
    omega

theorem Reads.of_mem (h : Reads size input pieces rest) (hm : piece ∈ pieces) :
    piece ≠ [] ∧ piece.length ≤ size - 1 ∧ Line piece := by
  induction h with
  | nil => cases hm
  | concat _ hf ih =>
    rcases List.mem_append.mp hm with hm | hm
    · exact ih hm
    · rw [List.mem_singleton.mp hm]
      exact (fgets_some hf).2

/-- Where every line fits, the calls read the lines. -/
theorem Reads.whole (h : Reads size input pieces rest)
    (hfit : ∀ l ∈ lines input, l.length ≤ size - 1) : lines input = pieces ++ lines rest := by
  induction h with
  | nil => rfl
  | @concat pieces piece rest rest' _ hf ih =>
    have hrest : ∀ l ∈ lines rest, l.length ≤ size - 1 := by
      intro l hl
      apply hfit
      rw [ih]
      exact List.mem_append_right _ hl
    rw [ih, fgets_whole hf hrest]
    simp

end LineInput
