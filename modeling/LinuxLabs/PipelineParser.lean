import LinuxLabs.StringTokens
import LinuxLabs.PipelineShell

/-! # The pipeline parser (lab 12)
`parse_pipeline` moves each token over its spaces before it stores it, so what `commands` holds
are pointers into the middle of the tokens. -/
namespace PipelineParser

open CString (Byte ascii)
open StringTokens
open PipelineShell (maxCmds bar space cutLine)

def isBar (b : Byte) : Bool := b = bar

/-- `while (*token == ' ') token++`. -/
def trimLeft (buf : List Byte) (token : ℕ) : ℕ :=
  token + ((buf.drop token).takeWhile (· = space)).length

/-- The loop of `parse_pipeline`, with `room` for `MAX_CMDS - count`. -/
def collectTrimmed (c : Cursor) (token : Option ℕ) (count : ℕ) (commands : Pointers) :
    ℕ → Collected
  | 0 => ⟨c, count, commands, false⟩
  | room + 1 =>
    match token with
    | none => ⟨c, count, commands, false⟩
    | some t =>
      let r := strtok isBar c
      collectTrimmed r.2 r.1 (count + 1) (commands.store count (some (trimLeft c.buf t))) room

/-- What `parse_pipeline` returns and leaves in its two arrays. -/
structure Parsed where
  count : ℕ
  commands : Pointers
  line : List Byte

/-- `slots` is what `commands` holds before. -/
def parsePipeline (line : List Byte) (slots : ℕ → Option ℕ) : Parsed :=
  let token := strtok isBar ⟨line, 0⟩
  let r := collectTrimmed token.2 token.1 0 ⟨slots, []⟩ maxCmds
  ⟨r.count, r.array, r.cursor.buf⟩

def trim (word : List Byte) : List Byte := word.dropWhile (· = space)

/-- The caller gets these commands, and only their places in the array were written. -/
structure Returns (r : Parsed) (commands : List (List Byte)) : Prop where
  count : r.count = commands.length
  written : r.commands.written = List.range commands.length
  entries : ∀ (k : ℕ) (command : List Byte), commands[k]? = some command →
    ∃ t, r.commands.slots k = some t ∧ textAt r.line t = command

/-- Commands with a bar between each two, and spaces behind the bars. -/
def joinBars (first : List Byte) (rest : List (ℕ × List Byte)) : List Byte :=
  first ++ rest.flatMap fun c => bar :: (List.replicate c.1 space ++ c.2)

variable {c : Cursor} {t : ℕ} {word s line : List Byte} {words : List (List Byte)}
  {token : Option ℕ} {count room : ℕ} {commands : Pointers}

/-! ## The loop -/

theorem trim_noNul (h : (0 : Byte) ∉ word) : (0 : Byte) ∉ trim word := fun hz =>
  h ((List.dropWhile_sublist _).subset hz)

theorem takeWhile_space_stops (word tail : List Byte) :
    (word ++ 0 :: tail).takeWhile (· = space) = word.takeWhile (· = space) := by
  induction word with
  | nil => rw [List.nil_append, List.takeWhile_cons_of_neg (by decide), List.takeWhile_nil]
  | cons b word ih =>
    rw [List.cons_append, List.takeWhile_cons, List.takeWhile_cons, ih]

/-- The pointer behind the spaces of a token is one to the rest of its text. -/
theorem token_trim (h : Token c t word) : Token c (trimLeft c.buf t) (trim word) := by
  obtain ⟨tail, ht⟩ := h.text
  have hsplit := List.takeWhile_append_dropWhile (p := (· = space)) (l := word)
  have hlen := congrArg List.length hsplit
  rw [List.length_append] at hlen
  rw [trimLeft, ht, takeWhile_space_stops]
  refine ⟨trim_noNul h.noNul, ⟨tail, ?_⟩, h.ended.imp_left fun hlt => ?_⟩
  · rw [← List.drop_drop, ht]
    nth_rewrite 2 [← hsplit]
    rw [List.append_assoc, List.drop_left' rfl, trim]
  · rw [trim]
    omega

theorem collectTrimmed_token (h : Token c t word) (hs : At c s) :
    Token (collectTrimmed c token count commands room).cursor t word := by
  induction room generalizing c token count commands s with
  | zero => exact h
  | succ room ih =>
    cases token with
    | none => exact h
    | some u =>
      obtain ⟨rest, hrest⟩ := (hs.reads isBar).left
      exact ih (h.kept hs) hrest

/-- The loop stores the words there is room for, each behind its spaces. -/
theorem collectTrimmed_stores (h : Reads isBar c token words) :
    Stores (collectTrimmed c token count commands room) count commands
      ((words.take room).map trim) := by
  induction room generalizing c token words count commands with
  | zero => exact ⟨rfl, by simp [collectTrimmed], fun _ _ => rfl, by simp⟩
  | succ room ih =>
    cases h with
    | done left => exact ⟨rfl, by simp [collectTrimmed], fun _ _ => rfl, by simp⟩
    | @word t word rest htoken left =>
      have hrest : Stores _ (count + 1) (commands.store count (some (trimLeft c.buf t))) _ :=
        ih (left.reads isBar)
      have htrim := token_trim htoken
      rw [collectTrimmed, List.take_succ_cons, List.map_cons]
      refine ⟨?_, ?_, fun k hk => ?_, fun k w hw => ?_⟩
      · rw [hrest.count, List.length_cons]
        omega
      · rw [hrest.written, List.length_cons, List.range'_succ, Pointers.store, List.append_assoc,
          List.singleton_append]
      · exact (hrest.before k (by omega)).trans (commands.store_of_ne (by omega) _)
      · cases k with
        | zero =>
          cases hw
          obtain ⟨_, hat⟩ := (left.reads isBar).left
          refine ⟨trimLeft c.buf t, ?_, collectTrimmed_token (htrim.kept left) hat⟩
          exact (hrest.before count (Nat.lt_succ_self count)).trans (commands.store_self count _)
        | succ k =>
          obtain ⟨u, hu, htok⟩ := hrest.entries k w hw
          exact ⟨u, by rw [← hu]; congr 1; omega, htok⟩

theorem parsePipeline_returns (h : (0 : Byte) ∉ line) (tail : List Byte) (slots : ℕ → Option ℕ) :
    Returns (parsePipeline (line ++ 0 :: tail) slots)
      (((fields isBar line).take maxCmds).map trim) := by
  have hs : At ⟨line ++ 0 :: tail, 0⟩ line := ⟨h, tail, rfl⟩
  have hc : Stores (collectTrimmed _ _ _ _ maxCmds) 0 ⟨slots, []⟩ _ :=
    collectTrimmed_stores (hs.reads isBar)
  refine ⟨hc.count.trans (Nat.zero_add _), ?_, fun k command hk => ?_⟩
  · rw [List.range_eq_range']
    exact hc.written
  · obtain ⟨t, ht, htoken⟩ := hc.entries k command hk
    rw [Nat.zero_add] at ht
    exact ⟨t, ht, htoken.textAt⟩

/-! ## The shell's model of it -/

theorem returns_shell (h : (0 : Byte) ∉ line) (tail : List Byte) (slots : ℕ → Option ℕ) :
    Returns (parsePipeline (line ++ 0 :: tail) slots) (PipelineShell.parsePipeline line) :=
  parsePipeline_returns h tail slots

theorem cutLine_eq (line : List Byte) : cutLine line = cutText isBar line := by
  have hbar : isBar = fun b => decide (b = bar) := rfl
  simp [cutLine, cutText, hbar]

/-- What `execute_pipeline` has in `cmdline` after the call. -/
theorem parsePipeline_line (h : (0 : Byte) ∉ line) (tail : List Byte) (slots : ℕ → Option ℕ) :
    textAt (parsePipeline (line ++ 0 :: tail) slots).line 0 = cutLine line := by
  have hs : At ⟨line ++ 0 :: tail, 0⟩ line := ⟨h, tail, rfl⟩
  obtain ⟨rest, hrest⟩ := (hs.reads isBar).left
  rw [cutLine_eq]
  exact (collectTrimmed_token (strtok_cut isBar hs) hrest).textAt

/-! ## Joined commands -/

theorem joinBars_cons (first : List Byte) (c : ℕ × List Byte) (rest : List (ℕ × List Byte)) :
    joinBars first (c :: rest) =
      first ++ bar :: joinBars (List.replicate c.1 space ++ c.2) rest := by
  simp [joinBars]

theorem fields_joinBars {first : List Byte} {rest : List (ℕ × List Byte)}
    (hfirst : first ≠ [] ∧ bar ∉ first) (hrest : ∀ c ∈ rest, c.2 ≠ [] ∧ bar ∉ c.2) :
    fields isBar (joinBars first rest) =
      first :: rest.map fun c => List.replicate c.1 space ++ c.2 := by
  have hword : ∀ b ∈ first, isBar b = false := fun b hb =>
    decide_eq_false fun he => hfirst.2 (he ▸ hb)
  induction rest generalizing first with
  | nil =>
    have hs : Starts isBar (joinBars first []) [] first [] :=
      ⟨by simp [joinBars], by simp, hfirst.1, hword, by simp⟩
    exact hs.fields
  | cons c rest ih =>
    obtain ⟨hc, hrest⟩ := List.forall_mem_cons.mp hrest
    have hnext : List.replicate c.1 space ++ c.2 ≠ [] ∧
        bar ∉ List.replicate c.1 space ++ c.2 := by
      refine ⟨by simp [hc.1], fun hb => ?_⟩
      rcases List.mem_append.mp hb with hb | hb
      · exact absurd (List.eq_of_mem_replicate hb) (by decide)
      · exact hc.2 hb
    rw [joinBars_cons, fields_word hfirst.1 hword (by simp [isBar]), List.tail_cons,
      ih hnext hrest fun b hb => decide_eq_false fun he => hnext.2 (he ▸ hb), List.map_cons]

theorem trim_command {command : List Byte} (h : command.head? ≠ some space) (n : ℕ) :
    trim (List.replicate n space ++ command) = command := by
  rw [trim, List.dropWhile_append_of_pos (by simp)]
  cases command with
  | nil => rfl
  | cons b command => exact List.dropWhile_cons_of_neg (by simpa using h)

/-- The line gives its fields without their leading spaces; and commands that were joined with
bars come back. -/
structure ParsedRight (line : List Byte) (r : Parsed) : Prop where
  returns : Returns r (((fields isBar line).take maxCmds).map trim)
  inside : ∀ i ∈ r.commands.written, i < maxCmds
  joined : ∀ first rest, line = joinBars first rest → rest.length < maxCmds →
    (∀ command ∈ first :: rest.map Prod.snd,
      command ≠ [] ∧ bar ∉ command ∧ command.head? ≠ some space) →
    Returns r (first :: rest.map Prod.snd)

/-- `parse_pipeline` is right for every line. -/
theorem parsePipeline_right (line tail : List Byte) (slots : ℕ → Option ℕ)
    (h : (0 : Byte) ∉ line) : ParsedRight line (parsePipeline (line ++ 0 :: tail) slots) := by
  have hr := parsePipeline_returns h tail slots
  refine ⟨hr, fun i hi => ?_, fun first rest hline hlen hc => ?_⟩
  · rw [hr.written, List.mem_range, List.length_map] at hi
    exact Nat.lt_of_lt_of_le hi (List.length_take_le ..)
  · obtain ⟨hfirst, hrest⟩ := List.forall_mem_cons.mp hc
    have hback : ((fields isBar line).take maxCmds).map trim = first :: rest.map Prod.snd := by
      rw [hline, fields_joinBars ⟨hfirst.1, hfirst.2.1⟩
          fun c hm => (hrest c.2 (List.mem_map_of_mem hm)).imp_right And.left,
        List.take_of_length_le (by simpa using Nat.succ_le_of_lt hlen), List.map_cons, List.map_map]
      refine congrArg₂ _ (trim_command hfirst.2.2 0) (List.map_congr_left fun c hm => ?_)
      exact trim_command (hrest c.2 (List.mem_map_of_mem hm)).2.2 c.1
    rwa [hback] at hr

/-- Empty fields are skipped and a field of spaces is an empty command. -/
theorem parsePipeline_right_spaces : ParsedRight (ascii "|ls -l||  wc | ")
    (parsePipeline (ascii "|ls -l||  wc | " ++ 0 :: []) fun _ => none) :=
  parsePipeline_right _ [] _ (by decide)

end PipelineParser
