import LinuxLabs.StringTokens

/-! # The command parser of the background-job shell (lab 07)
The loop looks at a word only while it still has room for one, so a `&` behind a full argument
array is not seen. -/
namespace BackgroundParser

open CString hiding strtok
open StringTokens

def maxArgs : ℕ := 20

def isBlank (b : Byte) : Bool := b = space ∨ b = 9 ∨ b = newline

def ampersand : List Byte := ascii "&"

/-- `strcmp(token, "&") == 0`. -/
def isAmpersand (word : List Byte) : Bool := word = ampersand

/-- What `parse_command` leaves in `bg`, `args` and `line`. -/
structure Parsed where
  bg : Bool
  args : Pointers
  line : List Byte

/-- `slots` is what `args` holds before. -/
def parseCommand (line : List Byte) (slots : ℕ → Option ℕ) : Parsed :=
  let r := tokenize isBlank isAmpersand (maxArgs - 1) line slots
  ⟨r.stopped, r.array, r.cursor.buf⟩

/-- `args` is `words` followed by `NULL`. -/
structure Holds (r : Parsed) (words : List (List Byte)) : Prop where
  entries : ∀ (k : ℕ) (word : List Byte), words[k]? = some word →
    ∃ t, r.args.slots k = some t ∧ textAt r.line t = word
  null : r.args.slots words.length = none

/-- The result for a line of these words. -/
structure ParsedRight (words : List (List Byte)) (r : Parsed) : Prop where
  background : ∀ before behind, words = before ++ ampersand :: behind → ampersand ∉ before →
    before.length ≤ maxArgs - 1 → r.bg = true ∧ Holds r before
  foreground : ampersand ∉ words → words.length ≤ maxArgs - 1 → r.bg = false ∧ Holds r words
  inside : ∀ i ∈ r.args.written, i < maxArgs

variable {line : List Byte} {words before behind : List (List Byte)}

theorem takeWhile_before (h : ampersand ∉ before) :
    (before ++ ampersand :: behind).takeWhile (fun w => !isAmpersand w) = before := by
  rw [List.takeWhile_append_of_pos, List.takeWhile_cons_of_neg (by simp [isAmpersand]),
    List.append_nil]
  intro w hw
  have hne : w ≠ ampersand := fun he => h (he ▸ hw)
  simpa [isAmpersand] using hne

theorem takeWhile_all (h : ampersand ∉ words) :
    words.takeWhile (fun w => !isAmpersand w) = words := by
  refine List.takeWhile_eq_self_iff.mpr fun w hw => ?_
  have hne : w ≠ ampersand := fun he => h (he ▸ hw)
  simpa [isAmpersand] using hne

/-- Up to a `&` the words are stored, and it is recognised if the array is not full before it. -/
theorem parse_before (h : (0 : Byte) ∉ line) (tail : List Byte) (slots : ℕ → Option ℕ)
    (hw : fields isBlank line = before ++ ampersand :: behind) (hb : ampersand ∉ before)
    (hle : before.length ≤ maxArgs - 1) :
    let r := parseCommand (line ++ 0 :: tail) slots
    Holds r before ∧ (r.bg = true ↔ before.length < maxArgs - 1) := by
  intro r
  have ht := tokenize_tokenized isBlank isAmpersand (maxArgs - 1) h tail slots
  have hstop := tokenize_stopped isBlank isAmpersand (maxArgs - 1) h tail slots
  rw [collected, hw, takeWhile_before hb, List.take_of_length_le hle] at ht
  rw [hw, takeWhile_before hb] at hstop
  refine ⟨⟨ht.entries, ht.null⟩, hstop.trans ?_⟩
  simp [isAmpersand]

theorem parse_all (h : (0 : Byte) ∉ line) (tail : List Byte) (slots : ℕ → Option ℕ)
    (hno : ampersand ∉ fields isBlank line) (hle : (fields isBlank line).length ≤ maxArgs - 1) :
    let r := parseCommand (line ++ 0 :: tail) slots
    r.bg = false ∧ Holds r (fields isBlank line) := by
  intro r
  have ht := tokenize_tokenized isBlank isAmpersand (maxArgs - 1) h tail slots
  have hstop := tokenize_stopped isBlank isAmpersand (maxArgs - 1) h tail slots
  rw [collected, takeWhile_all hno, List.take_of_length_le hle] at ht
  refine ⟨Bool.eq_false_iff.mpr fun hbg => ?_, ht.entries, ht.null⟩
  obtain ⟨-, w, hw, hamp⟩ := hstop.mp hbg
  simp only [isAmpersand, decide_eq_true_eq] at hamp
  exact hno (hamp ▸ hw)

theorem parse_inside (h : (0 : Byte) ∉ line) (tail : List Byte) (slots : ℕ → Option ℕ) :
    ∀ i ∈ (parseCommand (line ++ 0 :: tail) slots).args.written, i < maxArgs := by
  intro i hi
  have ht := tokenize_tokenized isBlank isAmpersand (maxArgs - 1) h tail slots
  have hw : (parseCommand (line ++ 0 :: tail) slots).args.written = _ := ht.written
  have hle : (collected isAmpersand (fields isBlank line) (maxArgs - 1)).length ≤ maxArgs - 1 :=
    List.length_take_le ..
  rw [hw, List.mem_range] at hi
  have hmax : 0 < maxArgs := by decide
  omega

/-- `parse_command` is right for every line but those whose first `&` is the word that the array
has no room for. -/
theorem parsed_right_iff (line tail : List Byte) (slots : ℕ → Option ℕ) (h : (0 : Byte) ∉ line) :
    ParsedRight (fields isBlank line) (parseCommand (line ++ 0 :: tail) slots) ↔
      ¬ ((fields isBlank line)[maxArgs - 1]? = some ampersand ∧
        ampersand ∉ (fields isBlank line).take (maxArgs - 1)) := by
  constructor
  · rintro hr ⟨hat, hno⟩
    obtain ⟨hlt, hget⟩ := List.getElem?_eq_some_iff.mp hat
    have hlen : ((fields isBlank line).take (maxArgs - 1)).length = maxArgs - 1 :=
      List.length_take_of_le (Nat.le_of_lt hlt)
    have hsplit : fields isBlank line = (fields isBlank line).take (maxArgs - 1) ++
        ampersand :: (fields isBlank line).drop (maxArgs - 1 + 1) := by
      rw [← hget, ← List.drop_eq_getElem_cons hlt, List.take_append_drop]
    obtain ⟨-, hbg⟩ := parse_before h tail slots hsplit hno (Nat.le_of_eq hlen)
    have hfull := hbg.mp (hr.background _ _ hsplit hno (Nat.le_of_eq hlen)).1
    rw [hlen] at hfull
    exact Nat.lt_irrefl _ hfull
  · intro hn
    refine ⟨fun before behind hw hno hle => ?_, parse_all h tail slots, parse_inside h tail slots⟩
    obtain ⟨hholds, hbg⟩ := parse_before h tail slots hw hno hle
    refine ⟨hbg.mpr (Nat.lt_of_le_of_ne hle fun hfull => hn ?_), hholds⟩
    rw [hw, ← hfull, List.take_left' rfl]
    exact ⟨by simp, hno⟩

/-- The README's example. -/
theorem parsed_right_sleep :
    ParsedRight [ascii "sleep", ascii "5", ampersand]
      (parseCommand (ascii "sleep 5 &\n" ++ 0 :: []) fun _ => none) :=
  (parsed_right_iff (ascii "sleep 5 &\n") [] _ (by decide)).mpr (by decide)

/-- Nineteen words and a `&`: the command would run in the foreground. -/
theorem ampersand_not_seen :
    ¬ ParsedRight (fields isBlank (ascii "echo 1 2 3 4 5 6 7 8 9 10 11 12 13 14 15 16 17 18 &\n"))
      (parseCommand (ascii "echo 1 2 3 4 5 6 7 8 9 10 11 12 13 14 15 16 17 18 &\n" ++ 0 :: [])
        fun _ => none) := by
  intro hr
  have hbg := hr.background
    (fields isBlank (ascii "echo 1 2 3 4 5 6 7 8 9 10 11 12 13 14 15 16 17 18")) [] (by decide)
    (by decide) (by decide)
  exact absurd hbg.1 (by decide)

end BackgroundParser
