import Mathlib.Algebra.GroupWithZero.Nat
import Mathlib.Data.List.TakeWhile
import Mathlib.Data.Nat.Notation

/-! # Byte strings with C's terminator
A buffer is the list of its bytes; the string it holds ends before its first NUL.
`CharArray` is a `char[size]` that holds a terminated string, with that fact as a field. -/
namespace CString

abbrev Byte := UInt8

def newline : Byte := 10
def space : Byte := 32

def ascii (text : String) : List Byte := text.toList.map fun c => c.toNat.toUInt8

/-- The digits `%d` prints for a non-negative number. -/
def decimal (n : ℕ) : List Byte := (Nat.toDigits 10 n).map fun c => c.toNat.toUInt8

def isDigit (b : Byte) : Bool := 48 ≤ b ∧ b ≤ 57

def cstr (buf : List Byte) : List Byte := buf.takeWhile (· ≠ 0)

/-- `s[strcspn(s, "\n")] = '\0'`. -/
def cutNewline (s : List Byte) : List Byte := s.takeWhile (· ≠ newline)

/-- `strncmp(s, t, n) == 0`, for strings given without their terminators. -/
def strncmp (s t : List Byte) (n : ℕ) : Bool := s.take n == t.take n

/-- What `snprintf(dst, size, ...)` leaves in `dst` before the terminator. -/
def snprintf (size : ℕ) (text : List Byte) : List Byte := text.take (size - 1)

/-- Memory whose first bytes have been overwritten. -/
def overwrite (old new : List Byte) : List Byte := new ++ old.drop new.length

/-- `strtok`: the token, and the string that the next call goes on with. -/
def strtok (s : List Byte) (delim : Byte) : Option (List Byte × List Byte) :=
  match s.dropWhile (· = delim) with
  | [] => none
  | rest => some (rest.takeWhile (· ≠ delim), (rest.dropWhile (· ≠ delim)).tail)

structure CharArray (size : ℕ) where
  text : List Byte
  fits : text.length < size
  noNul : (0 : Byte) ∉ text
  deriving DecidableEq

theorem cstr_noNul (buf : List Byte) : (0 : Byte) ∉ cstr buf := by
  intro h
  have hz := List.mem_takeWhile_imp h
  simp at hz

theorem cstr_of_noNul {s : List Byte} (h : (0 : Byte) ∉ s) : cstr s = s :=
  List.takeWhile_eq_self_iff.mpr fun b hb => by
    have : b ≠ 0 := fun hz => h (hz ▸ hb)
    simpa using this

theorem cstr_append_of_noNul {s : List Byte} (h : (0 : Byte) ∉ s) (rest : List Byte) :
    cstr (s ++ rest) = s ++ cstr rest :=
  List.takeWhile_append_of_pos fun b hb => by
    have : b ≠ 0 := fun hz => h (hz ▸ hb)
    simpa using this

theorem overwrite_whole {old new : List Byte} (h : old.length = new.length) :
    overwrite old new = new := by
  rw [overwrite, List.drop_of_length_le h.le, List.append_nil]

theorem overwrite_length {old new : List Byte} (h : new.length ≤ old.length) :
    (overwrite old new).length = old.length := by
  rw [overwrite, List.length_append, List.length_drop]
  omega

theorem toNat_of_isDigit {c : Char} (h : c.isDigit) : 48 ≤ c.toNat ∧ c.toNat ≤ 57 := by
  simp only [Char.isDigit, Bool.and_eq_true, decide_eq_true_eq] at h
  exact ⟨h.1, h.2⟩

theorem isDigit_decimal {n : ℕ} {b : Byte} (h : b ∈ decimal n) : isDigit b = true := by
  obtain ⟨c, hc, rfl⟩ := List.mem_map.mp h
  obtain ⟨hlow, hhigh⟩ := toNat_of_isDigit
    (Nat.isDigit_of_mem_toDigits (by omega) (by omega) hc)
  have hb : c.toNat.toUInt8.toNat = c.toNat := Nat.mod_eq_of_lt (by omega)
  simp only [isDigit, decide_eq_true_eq, UInt8.le_iff_toNat_le, hb]
  exact ⟨hlow, hhigh⟩

theorem decimal_noNul (n : ℕ) : (0 : Byte) ∉ decimal n := fun h =>
  absurd (isDigit_decimal h) (by decide)

theorem decimal_injective {m n : ℕ} (h : decimal m = decimal n) : m = n := by
  have hchars (k : ℕ) :
      (decimal k).map (fun b => Char.ofNat b.toNat) = Nat.toDigits 10 k := by
    rw [decimal, List.map_map]
    refine (List.map_congr_left fun c hc => ?_).trans (List.map_id _)
    obtain ⟨-, hhigh⟩ := toNat_of_isDigit
      (Nat.isDigit_of_mem_toDigits (by omega) (by omega) hc)
    have hb : c.toNat.toUInt8.toNat = c.toNat := Nat.mod_eq_of_lt (by omega)
    simp only [Function.comp_apply, hb, Char.ofNat_toNat, id_eq]
  have hdigits : Nat.toDigits 10 m = Nat.toDigits 10 n := by
    rw [← hchars m, ← hchars n, h]
  rw [← Nat.ofDigitChars_ten_toDigits (n := m), hdigits, Nat.ofDigitChars_ten_toDigits]

/-- A number ends where a text begins with something else than a digit. -/
theorem decimal_append_inj {m n : ℕ} {text r r' : List Byte}
    (ht : text.head?.map isDigit = some false)
    (h : decimal m ++ (text ++ r) = decimal n ++ (text ++ r')) : m = n ∧ r = r' := by
  cases text with
  | nil => cases ht
  | cons b text =>
    have hb : ¬ isDigit b = true := by
      rw [Option.some.inj ht]
      exact Bool.false_ne_true
    have hcut (k : ℕ) (r : List Byte) :
        (decimal k ++ (b :: text ++ r)).takeWhile isDigit = decimal k := by
      rw [List.takeWhile_append_of_pos fun _ => isDigit_decimal, List.cons_append,
        List.takeWhile_cons_of_neg hb, List.append_nil]
    have hnumber : decimal m = decimal n := by rw [← hcut m r, h, hcut n r']
    rw [hnumber, List.append_right_inj, List.append_right_inj] at h
    exact ⟨decimal_injective hnumber, h⟩

theorem snprintf_noNul {s : List Byte} (h : (0 : Byte) ∉ s) (size : ℕ) :
    (0 : Byte) ∉ snprintf size s :=
  fun hm => h ((List.take_prefix _ _).subset hm)

theorem snprintf_length_lt {size : ℕ} (h : 0 < size) (text : List Byte) :
    (snprintf size text).length < size :=
  (List.length_take_le _ _).trans_lt (Nat.sub_one_lt_of_lt h)

namespace CharArray

/-- The size of a name. -/
instance neZero32 : NeZero 32 := ⟨by decide⟩

/-- The size of a command line. -/
instance neZero256 : NeZero 256 := ⟨by decide⟩

variable {size : ℕ}

@[ext] theorem ext {a b : CharArray size} (h : a.text = b.text) : a = b := by
  cases a; cases b; simp_all

theorem nul_notMem_nil : (0 : Byte) ∉ [] := List.not_mem_nil

/-- `dst[0] = '\0'`. -/
def empty [NeZero size] : CharArray size :=
  ⟨[], Nat.pos_of_ne_zero (NeZero.ne size), nul_notMem_nil⟩

/-- `snprintf(dst, size, "%s", s)`. -/
def print [NeZero size] (s : List Byte) : CharArray size where
  text := snprintf size (cstr s)
  fits := by
    have := Nat.pos_of_ne_zero (NeZero.ne size)
    simp only [snprintf, List.length_take]
    omega
  noNul := snprintf_noNul (cstr_noNul s) size

@[simp] theorem empty_text [NeZero size] : (empty : CharArray size).text = [] := rfl

theorem print_text [NeZero size] {s : List Byte} (h : (0 : Byte) ∉ s) :
    (print s : CharArray size).text = s.take (size - 1) := by
  simp only [print, snprintf, cstr_of_noNul h]

end CharArray

/-- A NUL-free literal is a prefix of the string exactly when it is one of the buffer. -/
theorem strncmp_cstr_iff {t : List Byte} {n : ℕ} (ht : (0 : Byte) ∉ t) (hn : t.length = n)
    (buf : List Byte) : strncmp (cstr buf) t n = true ↔ t <+: buf := by
  subst n
  simp only [strncmp, List.take_length, beq_iff_eq]
  constructor
  · intro h
    exact (h ▸ List.take_prefix t.length (cstr buf)).trans (List.takeWhile_prefix _)
  · rintro ⟨rest, rfl⟩
    rw [cstr_append_of_noNul ht]
    exact List.take_left' rfl

/-- The argument a command cuts out of a buffer: its bytes past the command word, up to
the first newline or NUL. -/
theorem cutNewline_drop_cstr {t buf : List Byte} (ht : (0 : Byte) ∉ t) (h : t <+: buf) :
    cutNewline ((cstr buf).drop t.length) =
      (buf.drop t.length).takeWhile (fun b => b ≠ 0 ∧ b ≠ newline) := by
  obtain ⟨rest, rfl⟩ := h
  rw [cstr_append_of_noNul ht, List.drop_left' rfl, List.drop_left' rfl, cutNewline, cstr,
    List.takeWhile_takeWhile]
  congr 1
  funext b
  simp [and_comm]

/-- Leading delimiters are skipped, and the token ends at the next one. -/
theorem strtok_token {delim : Byte} {pad word rest : List Byte} (hpad : ∀ b ∈ pad, b = delim)
    (hne : word ≠ []) (hword : delim ∉ word) (hrest : rest = [] ∨ rest.head? = some delim) :
    strtok (pad ++ (word ++ rest)) delim = some (word, rest.tail) := by
  obtain ⟨b, word, rfl⟩ := List.exists_cons_of_ne_nil hne
  have hb : b ≠ delim := fun h => hword (h ▸ List.mem_cons_self)
  have hstart : (pad ++ (b :: word ++ rest)).dropWhile (· = delim) = b :: word ++ rest := by
    rw [List.dropWhile_append_of_pos fun a ha => by simpa using hpad a ha, List.cons_append,
      List.dropWhile_cons_of_neg (by simpa using hb)]
  have hall : ∀ a ∈ b :: word, decide (a ≠ delim) = true := fun a ha =>
    decide_eq_true fun h => hword (h ▸ ha)
  have hend : rest.takeWhile (· ≠ delim) = [] ∧ rest.dropWhile (· ≠ delim) = rest := by
    rcases hrest with rfl | hd
    · exact ⟨rfl, rfl⟩
    · obtain ⟨rest, rfl⟩ := List.head?_eq_some_iff.mp hd
      simp
  rw [strtok, hstart]
  simp only [List.cons_append]
  rw [← List.cons_append, List.takeWhile_append_of_pos hall, List.dropWhile_append_of_pos hall,
    hend.1, hend.2, List.append_nil]

end CString
