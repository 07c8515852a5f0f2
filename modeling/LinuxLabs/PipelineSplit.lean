import LinuxLabs.StringTokens

/-! # The pipeline splitter (lab 05)
`commands` has room for `MAX_CMDS` pointers and the loop stores so many, so the `NULL` behind
them finds its place only when there are fewer. -/
namespace PipelineSplit

open CString hiding strtok
open StringTokens

def maxCmds : ℕ := 5

def isBar (b : Byte) : Bool := b = 124

/-- What `split_pipeline` returns and leaves in its two arrays. -/
structure Split where
  count : ℕ
  commands : Pointers
  line : List Byte

/-- `slots` is what `commands` holds before. -/
def splitPipeline (line : List Byte) (slots : ℕ → Option ℕ) : Split :=
  let r := tokenize isBar (fun _ => false) maxCmds line slots
  ⟨r.count, r.array, r.cursor.buf⟩

/-- The result for the string `line`. -/
structure SplitRight (line : List Byte) (r : Split) : Prop where
  inside : ∀ i ∈ r.commands.written, i < maxCmds
  count : r.count = min maxCmds (fields isBar line).length
  entries : ∀ k < r.count, ∃ t, r.commands.slots k = some t ∧
    (fields isBar line)[k]? = some (textAt r.line t)

variable {line : List Byte}

theorem collected_all (words : List (List Byte)) (room : ℕ) :
    collected (fun _ => false) words room = words.take room := by
  rw [collected, List.takeWhile_eq_self_iff.mpr (by simp)]

theorem splitPipeline_result (h : (0 : Byte) ∉ line) (tail : List Byte) (slots : ℕ → Option ℕ) :
    let r := splitPipeline (line ++ 0 :: tail) slots
    r.count = min maxCmds (fields isBar line).length ∧
      r.commands.written = List.range (r.count + 1) ∧
      ∀ k < r.count, ∃ t, r.commands.slots k = some t ∧
        (fields isBar line)[k]? = some (textAt r.line t) := by
  intro r
  have ht := tokenize_tokenized isBar (fun _ => false) maxCmds h tail slots
  rw [collected_all] at ht
  have hcount : r.count = ((fields isBar line).take maxCmds).length := ht.count
  refine ⟨by rw [hcount, List.length_take], by rw [hcount]; exact ht.written, fun k hk => ?_⟩
  rw [hcount] at hk
  have hfield := List.getElem?_eq_getElem hk
  obtain ⟨t, hslot, htext⟩ := ht.entries k _ hfield
  have hmax : k < maxCmds := Nat.lt_of_lt_of_le hk (List.length_take_le ..)
  rw [List.getElem?_take_of_lt hmax, ← htext] at hfield
  exact ⟨t, hslot, hfield⟩

/-- Count and entries are right for every line; the `NULL` is stored outside the array exactly
when the line has `MAX_CMDS` commands or more. -/
theorem split_right_iff (line tail : List Byte) (slots : ℕ → Option ℕ) (h : (0 : Byte) ∉ line) :
    SplitRight line (splitPipeline (line ++ 0 :: tail) slots) ↔
      (fields isBar line).length < maxCmds := by
  obtain ⟨hcount, hwritten, hentries⟩ := splitPipeline_result h tail slots
  constructor
  · intro hr
    have hlast := hr.inside (splitPipeline (line ++ 0 :: tail) slots).count
      (by rw [hwritten]; exact List.self_mem_range_succ)
    omega
  · intro hlt
    refine ⟨fun i hi => ?_, hcount, hentries⟩
    rw [hwritten, List.mem_range] at hi
    omega

/-- The line of the banner's example. -/
theorem split_right_three :
    SplitRight (ascii "ls -l | grep .c | wc -l\n")
      (splitPipeline (ascii "ls -l | grep .c | wc -l\n" ++ 0 :: []) fun _ => none) :=
  (split_right_iff _ [] _ (by decide)).mpr (by decide)

/-- Five commands, as many as the banner promises: the sixth pointer of an array of five is set. -/
theorem five_commands_overrun :
    ¬ SplitRight (ascii "a|b|c|d|e\n")
      (splitPipeline (ascii "a|b|c|d|e\n" ++ 0 :: []) fun _ => none) := by
  intro hr
  have hout := hr.inside 5 (by decide)
  revert hout
  decide

end PipelineSplit
