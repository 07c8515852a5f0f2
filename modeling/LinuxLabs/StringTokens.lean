import LinuxLabs.CString
import Mathlib.Logic.Function.Basic

/-! # `strtok` on the array it cuts
A token is a position in the array. A call ends the token it returns with a NUL and changes
nothing before the place it goes on from, so the earlier tokens keep their text. -/
namespace StringTokens

open CString

/-- The array, and where the next call goes on. -/
structure Cursor where
  buf : List Byte
  pos : ℕ
  deriving DecidableEq

/-- The string at a position. -/
def textAt (buf : List Byte) (t : ℕ) : List Byte := cstr (buf.drop t)

/-- `strtok(NULL, delim)`; the first call has position 0. -/
def strtok (isDelim : Byte → Bool) (c : Cursor) : Option ℕ × Cursor :=
  let rest := textAt c.buf c.pos
  let start := c.pos + (rest.takeWhile isDelim).length
  let body := rest.dropWhile isDelim
  if body = [] then (none, ⟨c.buf, start⟩)
  else
    let stop := start + (body.takeWhile fun b => !isDelim b).length
    if body.dropWhile (fun b => !isDelim b) = [] then (some start, ⟨c.buf, stop⟩)
    else (some start, ⟨c.buf.set stop 0, stop + 1⟩)

/-- An array of `char *`: what it holds, and the indices that were assigned to. -/
structure Pointers where
  slots : ℕ → Option ℕ
  written : List ℕ

def Pointers.store (a : Pointers) (i : ℕ) (p : Option ℕ) : Pointers :=
  ⟨Function.update a.slots i p, a.written ++ [i]⟩

@[simp] theorem Pointers.store_self (a : Pointers) (i : ℕ) (p : Option ℕ) :
    (a.store i p).slots i = p := Function.update_self ..

theorem Pointers.store_of_ne (a : Pointers) {i k : ℕ} (h : k ≠ i) (p : Option ℕ) :
    (a.store i p).slots k = a.slots k := Function.update_of_ne h ..

/-- What the loop of `collect` leaves behind. -/
structure Collected where
  cursor : Cursor
  count : ℕ
  array : Pointers
  stopped : Bool

/-- `while (token && i < n) { if (stop) break; array[i++] = token; token = strtok(NULL, delim); }`,
with `room` for `n - i`. -/
def collect (isDelim : Byte → Bool) (stop : List Byte → Bool) (c : Cursor) (token : Option ℕ)
    (i : ℕ) (array : Pointers) : ℕ → Collected
  | 0 => ⟨c, i, array, false⟩
  | room + 1 =>
    match token with
    | none => ⟨c, i, array, false⟩
    | some t =>
      if stop (textAt c.buf t) then ⟨c, i, array, true⟩
      else
        let r := strtok isDelim c
        collect isDelim stop r.2 r.1 (i + 1) (array.store i (some t)) room

/-- The first call, the loop, and the `NULL` behind the pointers it stored. -/
def tokenize (isDelim : Byte → Bool) (stop : List Byte → Bool) (room : ℕ) (line : List Byte)
    (slots : ℕ → Option ℕ) : Collected :=
  let token := strtok isDelim ⟨line, 0⟩
  let r := collect isDelim stop token.2 token.1 0 ⟨slots, []⟩ room
  { r with array := r.array.store r.count none }

/-- The non-empty fields between delimiters. -/
def fields (isDelim : Byte → Bool) (s : List Byte) : List (List Byte) :=
  (s.splitOnP isDelim).filter (· ≠ [])

variable {isDelim : Byte → Bool} {s word rest pad : List Byte} {c : Cursor} {t : ℕ}

@[simp] theorem fields_nil : fields isDelim [] = [] := by simp [fields]

theorem fields_delim {d : Byte} (hd : isDelim d = true) (s : List Byte) :
    fields isDelim (d :: s) = fields isDelim s := by
  simp [fields, List.splitOnP_cons_eq_if_modifyHead, hd]

theorem fields_pad (hpad : ∀ b ∈ pad, isDelim b = true) (s : List Byte) :
    fields isDelim (pad ++ s) = fields isDelim s := by
  induction pad with
  | nil => rfl
  | cons d pad ih =>
    rw [List.cons_append, fields_delim (hpad d List.mem_cons_self)]
    exact ih fun b hb => hpad b (List.mem_cons_of_mem d hb)

/-- A word ends at the end of the string or at a delimiter. -/
theorem fields_word (hne : word ≠ []) (hword : ∀ b ∈ word, isDelim b = false)
    (hrest : ∀ d ∈ rest.head?, isDelim d = true) :
    fields isDelim (word ++ rest) = word :: fields isDelim rest.tail := by
  cases rest with
  | nil =>
    rw [List.append_nil, fields, List.splitOnP_eq_singleton hword]
    simp [hne]
  | cons d rest =>
    rw [fields, List.splitOnP_append_cons_of_forall_mem hword d (hrest d rfl)]
    simp [hne, fields]

/-- A string begins with delimiters and a word, unless it is all delimiters. -/
structure Starts (isDelim : Byte → Bool) (s pad word rest : List Byte) : Prop where
  eq : s = pad ++ (word ++ rest)
  pad : ∀ b ∈ pad, isDelim b = true
  ne : word ≠ []
  word : ∀ b ∈ word, isDelim b = false
  rest : ∀ d ∈ rest.head?, isDelim d = true

theorem all_or_starts (isDelim : Byte → Bool) (s : List Byte) :
    (∀ b ∈ s, isDelim b = true) ∨ ∃ pad word rest, Starts isDelim s pad word rest := by
  have hpad : ∀ b ∈ s.takeWhile isDelim, isDelim b = true := fun b hb => List.mem_takeWhile_imp hb
  have hsplit := List.takeWhile_append_dropWhile (p := isDelim) (l := s)
  have hhead := List.head?_dropWhile_not isDelim s
  generalize s.takeWhile isDelim = pad at hpad hsplit
  generalize s.dropWhile isDelim = body at hsplit hhead
  subst hsplit
  cases body with
  | nil => exact Or.inl (by simpa using hpad)
  | cons b body =>
    have hb : isDelim b = false := by simpa using hhead
    refine Or.inr ⟨pad, (b :: body).takeWhile (fun b => !isDelim b),
      (b :: body).dropWhile (fun b => !isDelim b), ?_, hpad, by simp [hb], fun c hc => ?_,
      fun d hd => ?_⟩
    · rw [List.takeWhile_append_dropWhile]
    · simpa using List.mem_takeWhile_imp hc
    · have hrest := List.head?_dropWhile_not (fun b => !isDelim b) (b :: body)
      rw [hd] at hrest
      simpa using hrest

theorem fields_all (h : ∀ b ∈ s, isDelim b = true) : fields isDelim s = [] := by
  rw [← List.append_nil s, fields_pad h, fields_nil]

theorem Starts.fields (h : Starts isDelim s pad word rest) :
    fields isDelim s = word :: fields isDelim rest := by
  have hfirst := fields_word h.ne h.word h.rest
  rw [h.eq, fields_pad h.pad, hfirst]
  cases rest with
  | nil => rfl
  | cons d rest => rw [fields_delim (h.rest d rfl), List.tail_cons]

theorem Starts.takeWhile (h : Starts isDelim s pad word rest) :
    s.takeWhile isDelim = pad ∧ s.dropWhile isDelim = word ++ rest ∧
      (word ++ rest).takeWhile (fun b => !isDelim b) = word ∧
      (word ++ rest).dropWhile (fun b => !isDelim b) = rest := by
  obtain ⟨rfl, hpad, hne, hword, hrest⟩ := h
  obtain ⟨b, word, rfl⟩ := List.exists_cons_of_ne_nil hne
  have hb := hword b List.mem_cons_self
  have hstops : (b :: word ++ rest).takeWhile isDelim = [] ∧
      (b :: word ++ rest).dropWhile isDelim = b :: word ++ rest := by simp [hb]
  have hends : rest.takeWhile (fun b => !isDelim b) = [] ∧
      rest.dropWhile (fun b => !isDelim b) = rest := by
    cases rest with
    | nil => exact ⟨rfl, rfl⟩
    | cons d rest => simp [hrest d rfl]
  have hwords : ∀ c ∈ b :: word, (!isDelim c) = true := by simpa using hword
  rw [List.takeWhile_append_of_pos hpad, List.dropWhile_append_of_pos hpad, hstops.1, hstops.2,
    List.append_nil, List.takeWhile_append_of_pos hwords, List.dropWhile_append_of_pos hwords,
    hends.1, hends.2, List.append_nil]
  exact ⟨rfl, rfl, rfl, rfl⟩

theorem fields_eq_nil (h : fields isDelim s = []) : ∀ b ∈ s, isDelim b = true := by
  rcases all_or_starts isDelim s with hall | ⟨pad, word, rest, hs⟩
  · exact hall
  · rw [hs.fields] at h
    cases h

/-- Where the first field is, and what the others are the fields of. -/
theorem fields_eq_cons {words : List (List Byte)} (h : fields isDelim s = word :: words) :
    ∃ pad rest, Starts isDelim s pad word rest ∧ fields isDelim rest = words := by
  rcases all_or_starts isDelim s with hall | ⟨pad, w, rest, hs⟩
  · rw [fields_all hall] at h
    cases h
  · rw [hs.fields] at h
    cases h
    exact ⟨pad, rest, hs, rfl⟩

/-- What is left of the string at the cursor is `rest`. -/
structure At (c : Cursor) (rest : List Byte) : Prop where
  noNul : (0 : Byte) ∉ rest
  text : ∃ tail, c.buf.drop c.pos = rest ++ 0 :: tail

/-- The text of a token, ended before the cursor or where the whole string ends. -/
structure Token (c : Cursor) (t : ℕ) (word : List Byte) : Prop where
  noNul : (0 : Byte) ∉ word
  text : ∃ tail, c.buf.drop t = word ++ 0 :: tail
  ended : t + word.length < c.pos ∨ At c []

theorem At.textAt (h : At c rest) : textAt c.buf c.pos = rest := by
  obtain ⟨tail, ht⟩ := h.text
  rw [StringTokens.textAt, ht, cstr_append_of_noNul h.noNul]
  simp [cstr]

theorem Token.textAt (h : Token c t word) : textAt c.buf t = word := by
  obtain ⟨tail, ht⟩ := h.text
  rw [StringTokens.textAt, ht, cstr_append_of_noNul h.noNul]
  simp [cstr]

/-- The three results of a call, on the padding, the word and what comes behind it. -/
theorem strtok_cases (isDelim : Byte → Bool) (h : At c s) :
    ((∀ b ∈ s, isDelim b = true) ∧ strtok isDelim c = (none, ⟨c.buf, c.pos + s.length⟩)) ∨
    (∃ pad word, Starts isDelim s pad word [] ∧
      strtok isDelim c =
        (some (c.pos + pad.length), ⟨c.buf, c.pos + pad.length + word.length⟩)) ∨
    ∃ pad word d rest, Starts isDelim s pad word (d :: rest) ∧
      strtok isDelim c =
        (some (c.pos + pad.length), ⟨c.buf.set (c.pos + pad.length + word.length) 0,
          c.pos + pad.length + word.length + 1⟩) := by
  rw [strtok, h.textAt]
  dsimp only
  rcases all_or_starts isDelim s with hall | ⟨pad, word, rest, hs⟩
  · rw [if_pos (List.dropWhile_eq_nil_iff.mpr hall), List.takeWhile_eq_self_iff.mpr hall]
    exact Or.inl ⟨hall, rfl⟩
  · obtain ⟨hpad, hbody, hword, hrest⟩ := hs.takeWhile
    have hne : word ++ rest ≠ [] := by simp [hs.ne]
    rw [hpad, hbody, hword, hrest, if_neg hne]
    cases rest with
    | nil => exact Or.inr (Or.inl ⟨pad, word, hs, if_pos rfl⟩)
    | cons d rest => exact Or.inr (Or.inr ⟨pad, word, d, rest, hs, if_neg (by simp)⟩)

theorem At.advance (h : At c (pad ++ s)) : At ⟨c.buf, c.pos + pad.length⟩ s := by
  obtain ⟨tail, ht⟩ := h.text
  refine ⟨fun hz => h.noNul (List.mem_append_right _ hz), tail, ?_⟩
  rw [← List.drop_drop, ht, List.append_assoc, List.drop_left' rfl]

/-- The NUL behind a later token changes nothing in this one. -/
theorem drop_set_later {buf tail : List Byte} {n : ℕ} (h : buf.drop t = word ++ 0 :: tail)
    (hn : t + word.length < n) : ∃ tail', (buf.set n 0).drop t = word ++ 0 :: tail' := by
  obtain ⟨k, rfl⟩ := Nat.exists_eq_add_of_lt hn
  refine ⟨tail.set k 0, ?_⟩
  rw [List.drop_set, if_neg (by omega), h,
    show t + word.length + k + 1 - t = word.length + (k + 1) by omega,
    List.set_append_right _ _ (by omega), Nat.add_sub_cancel_left, List.set_cons_succ]

/-- The NUL that ends this token. -/
theorem drop_set_end {buf tail : List Byte} {d : Byte} (h : buf.drop t = word ++ d :: tail) :
    (buf.set (t + word.length) 0).drop t = word ++ 0 :: tail := by
  rw [List.drop_set, if_neg (by omega), h, Nat.add_sub_cancel_left,
    List.set_append_right _ _ (Nat.le_refl _), Nat.sub_self, List.set_cons_zero]

theorem At.end_of (h : At c s) : At ⟨c.buf, c.pos + s.length⟩ [] :=
  At.advance (by rwa [List.append_nil])

/-- When the fields are used up there is no token. -/
theorem strtok_none (h : At c s) (hf : fields isDelim s = []) :
    (strtok isDelim c).1 = none ∧ At (strtok isDelim c).2 [] := by
  rcases strtok_cases isDelim h with ⟨-, hr⟩ | ⟨pad, word, hs, -⟩ | ⟨pad, word, d, rest, hs, -⟩
  · rw [hr]
    exact ⟨rfl, h.end_of⟩
  · rw [hs.fields] at hf
    cases hf
  · rw [hs.fields] at hf
    cases hf

/-- A call returns the first of the fields that are left. -/
theorem strtok_some {words : List (List Byte)} (h : At c s)
    (hf : fields isDelim s = word :: words) :
    ∃ t, (strtok isDelim c).1 = some t ∧ Token (strtok isDelim c).2 t word ∧
      ∃ rest, At (strtok isDelim c).2 rest ∧ fields isDelim rest = words := by
  rcases strtok_cases isDelim h with ⟨hall, -⟩ | ⟨pad, w, hs, hr⟩ | ⟨pad, w, d, rest, hs, hr⟩
  · rw [fields_all hall] at hf
    cases hf
  · rw [hs.fields] at hf
    cases hf
    rw [hs.eq, List.append_nil] at h
    have hw := h.advance
    rw [hr]
    exact ⟨_, rfl, ⟨hw.noNul, hw.text, Or.inr hw.end_of⟩, [], hw.end_of, rfl⟩
  · rw [hs.fields, fields_delim (hs.rest d rfl)] at hf
    cases hf
    rw [hs.eq] at h
    have hnul := h.advance.noNul
    obtain ⟨tail, ht⟩ := h.advance.text
    rw [List.append_assoc, List.cons_append] at ht
    have hset := drop_set_end ht
    rw [hr]
    refine ⟨_, rfl, ⟨fun hz => hnul (List.mem_append_left _ hz), ⟨_, hset⟩, Or.inl ?_⟩, rest,
      ⟨fun hz => hnul (by simp [hz]), tail, ?_⟩, rfl⟩
    · exact Nat.lt_succ_self _
    · dsimp only
      rw [Nat.add_assoc, ← List.drop_drop, hset, ← List.singleton_append, ← List.append_assoc,
        List.drop_left' (by simp)]

/-- A call leaves the earlier tokens alone. -/
theorem Token.kept {words : List Byte} (h : Token c t word) (hs : At c words) :
    Token (strtok isDelim c).2 t word := by
  rcases h.ended with hlt | hend
  · rcases strtok_cases isDelim hs with ⟨-, hr⟩ | ⟨pad, w, -, hr⟩ | ⟨pad, w, d, rest, -, hr⟩
    · rw [hr]
      exact ⟨h.noNul, h.text, Or.inl (Nat.lt_add_right _ hlt)⟩
    · rw [hr]
      exact ⟨h.noNul, h.text, Or.inl (Nat.lt_add_right _ (Nat.lt_add_right _ hlt))⟩
    · obtain ⟨tail, ht⟩ := h.text
      rw [hr]
      refine ⟨h.noNul, drop_set_later ht (by omega), Or.inl ?_⟩
      dsimp only
      omega
  · have hnone : _ ∧ At (strtok isDelim c).2 [] := strtok_none hend fields_nil
    have hsame : (strtok isDelim c).2.buf = c.buf := by
      simp [strtok, hend.textAt]
    exact ⟨h.noNul, hsame ▸ h.text, Or.inr hnone.2⟩

/-- What is left of a string when a call has cut it: the delimiters it skipped, and its token. -/
def cutText (isDelim : Byte → Bool) (s : List Byte) : List Byte :=
  s.takeWhile isDelim ++ (s.dropWhile isDelim).takeWhile fun b => !isDelim b

theorem cutText_all (h : ∀ b ∈ s, isDelim b = true) : cutText isDelim s = s := by
  rw [cutText, List.takeWhile_eq_self_iff.mpr h, List.dropWhile_eq_nil_iff.mpr h,
    List.takeWhile_nil, List.append_nil]

theorem Starts.cutText (h : Starts isDelim s pad word rest) :
    cutText isDelim s = pad ++ word := by
  obtain ⟨hpad, hbody, hword, -⟩ := h.takeWhile
  rw [StringTokens.cutText, hpad, hbody, hword]

theorem cutText_initial (isDelim : Byte → Bool) (s : List Byte) : cutText isDelim s <+: s := by
  rcases all_or_starts isDelim s with hall | ⟨pad, word, rest, hs⟩
  · simp [cutText_all hall]
  · rw [hs.cutText, hs.eq, ← List.append_assoc]
    exact List.prefix_append ..

/-- The caller's pointer to the string is now one to this text. -/
theorem strtok_cut (isDelim : Byte → Bool) (h : At c s) :
    Token (strtok isDelim c).2 c.pos (cutText isDelim s) := by
  obtain ⟨tail, ht⟩ := h.text
  have hnul := h.noNul
  rcases strtok_cases isDelim h with ⟨hall, hr⟩ | ⟨pad, w, hs, hr⟩ | ⟨pad, w, d, rest, hs, hr⟩
  · rw [hr, cutText_all hall]
    exact ⟨hnul, ⟨tail, ht⟩, Or.inr h.end_of⟩
  · have hall : s = pad ++ w := by rw [hs.eq, List.append_nil]
    rw [hr, hs.cutText, ← hall, Nat.add_assoc, ← List.length_append, ← hall]
    exact ⟨hnul, ⟨tail, ht⟩, Or.inr h.end_of⟩
  · have hall : s = (pad ++ w) ++ d :: rest := by rw [hs.eq, List.append_assoc]
    rw [hall, List.append_assoc, List.cons_append] at ht
    rw [hr, hs.cutText, Nat.add_assoc, ← List.length_append]
    refine ⟨fun hz => hnul ?_, ⟨_, drop_set_end ht⟩, Or.inl (Nat.lt_succ_self _)⟩
    rw [hall]
    exact List.mem_append_left _ hz

/-- The loop has `words` before it, the first of them in `token`. -/
inductive Reads (isDelim : Byte → Bool) (c : Cursor) : Option ℕ → List (List Byte) → Prop where
  | done (left : At c []) : Reads isDelim c none []
  | word {t : ℕ} {word rest : List Byte} (token : Token c t word) (left : At c rest) :
      Reads isDelim c (some t) (word :: fields isDelim rest)

variable {words : List (List Byte)} {token : Option ℕ}

theorem Reads.left (h : Reads isDelim c token words) : ∃ rest, At c rest := by
  cases h with
  | done left => exact ⟨[], left⟩
  | word _ left => exact ⟨_, left⟩

theorem At.reads (isDelim : Byte → Bool) (h : At c s) :
    Reads isDelim (strtok isDelim c).2 (strtok isDelim c).1
      (fields isDelim s) := by
  cases hf : fields isDelim s with
  | nil =>
    obtain ⟨hnone, hend⟩ := strtok_none h hf
    rw [hnone]
    exact .done hend
  | cons word words =>
    obtain ⟨t, ht, htoken, rest, hrest, rfl⟩ := strtok_some h hf
    rw [ht]
    exact .word htoken hrest

/-! ## The collecting loop -/

variable {stop : List Byte → Bool} {i room : ℕ} {array : Pointers}

theorem collect_token (h : Token c t word) (hs : At c s) :
    Token (collect isDelim stop c token i array room).cursor t word := by
  induction room generalizing c token i array s with
  | zero => exact h
  | succ room ih =>
    cases token with
    | none => exact h
    | some u =>
      rw [collect]
      split
      · exact h
      · obtain ⟨rest, hrest⟩ := (hs.reads isDelim).left
        exact ih (h.kept hs) hrest

/-- The words in front of the one that stops the loop, as far as there is room for them. -/
def collected (stop : List Byte → Bool) (words : List (List Byte)) (room : ℕ) :
    List (List Byte) := (words.takeWhile fun w => !stop w).take room

/-- The words `ws` have been stored in order from `i` on, and nothing else has. -/
structure Stores (r : Collected) (i : ℕ) (array : Pointers) (ws : List (List Byte)) : Prop where
  count : r.count = i + ws.length
  written : r.array.written = array.written ++ List.range' i ws.length
  before : ∀ k < i, r.array.slots k = array.slots k
  entries : ∀ (k : ℕ) (word : List Byte), ws[k]? = some word →
    ∃ t, r.array.slots (i + k) = some t ∧ Token r.cursor t word

theorem collect_stores (h : Reads isDelim c token words) :
    Stores (collect isDelim stop c token i array room) i array (collected stop words room) := by
  induction room generalizing c token words i array with
  | zero => exact ⟨rfl, by simp [collect, collected], fun _ _ => rfl, by simp [collected]⟩
  | succ room ih =>
    cases h with
    | done left => exact ⟨rfl, by simp [collect, collected], fun _ _ => rfl, by simp [collected]⟩
    | @word t word rest htoken left =>
      rw [collect, htoken.textAt]
      split
      · next hstop =>
        have hnone : collected stop (word :: fields isDelim rest) (room + 1) = [] := by
          simp [collected, hstop]
        rw [hnone]
        exact ⟨rfl, by simp, fun _ _ => rfl, by simp⟩
      · next hgo =>
        have hcons : collected stop (word :: fields isDelim rest) (room + 1) =
            word :: collected stop (fields isDelim rest) room := by
          simp [collected, hgo]
        have hrest : Stores _ (i + 1) (array.store i (some t)) _ := ih (left.reads isDelim)
        rw [hcons]
        refine ⟨?_, ?_, fun k hk => ?_, fun k w hw => ?_⟩
        · rw [hrest.count, List.length_cons]
          omega
        · rw [hrest.written, List.length_cons, List.range'_succ, Pointers.store, List.append_assoc,
            List.singleton_append]
        · exact (hrest.before k (by omega)).trans (array.store_of_ne (by omega) _)
        · cases k with
          | zero =>
            cases hw
            refine ⟨t, ?_, collect_token (htoken.kept left) (left.reads isDelim).left.choose_spec⟩
            exact (hrest.before i (Nat.lt_succ_self i)).trans (array.store_self i _)
          | succ k =>
            obtain ⟨u, hu, htok⟩ := hrest.entries k w hw
            exact ⟨u, by rw [← hu]; congr 1; omega, htok⟩

/-- The loop ends at the stop word when there is one, and the array is not full before it. -/
theorem collect_stopped (h : Reads isDelim c token words) :
    (collect isDelim stop c token i array room).stopped = true ↔
      (words.takeWhile fun w => !stop w).length < room ∧ ∃ w ∈ words, stop w = true := by
  induction room generalizing c token words i array with
  | zero => simp [collect]
  | succ room ih =>
    cases h with
    | done left => simp [collect]
    | @word t word rest htoken left =>
      rw [collect, htoken.textAt]
      split
      · next hstop => simp [hstop]
      · next hgo =>
        rw [ih (left.reads isDelim)]
        simp [hgo]

/-- The array holds `ws` and `NULL`, and was written no further. -/
structure Tokenized (r : Collected) (ws : List (List Byte)) : Prop where
  count : r.count = ws.length
  written : r.array.written = List.range (ws.length + 1)
  entries : ∀ (k : ℕ) (word : List Byte), ws[k]? = some word →
    ∃ t, r.array.slots k = some t ∧ textAt r.cursor.buf t = word
  null : r.array.slots ws.length = none

theorem tokenize_tokenized (isDelim : Byte → Bool) (stop : List Byte → Bool) (room : ℕ)
    (h : (0 : Byte) ∉ s) (tail : List Byte) (slots : ℕ → Option ℕ) :
    Tokenized (tokenize isDelim stop room (s ++ 0 :: tail) slots)
      (collected stop (fields isDelim s) room) := by
  have hs : At ⟨s ++ 0 :: tail, 0⟩ s := ⟨h, tail, rfl⟩
  have hc : Stores _ 0 ⟨slots, []⟩ (collected stop (fields isDelim s) room) :=
    collect_stores (hs.reads isDelim)
  have hcount := hc.count
  rw [Nat.zero_add] at hcount
  refine ⟨hcount, ?_, fun k word hw => ?_, ?_⟩
  · rw [tokenize, Pointers.store, hc.written, hcount, List.range_succ, List.range_eq_range']
    rfl
  · obtain ⟨t, ht, htoken⟩ := hc.entries k word hw
    have hk := (List.getElem?_eq_some_iff.mp hw).1
    rw [Nat.zero_add] at ht
    refine ⟨t, ?_, htoken.textAt⟩
    rw [tokenize, Pointers.store_of_ne _ (by omega), ht]
  · rw [tokenize, hcount, Pointers.store_self]

/-- What the string of the caller has become. -/
theorem tokenize_cut (isDelim : Byte → Bool) (stop : List Byte → Bool) (room : ℕ)
    (h : (0 : Byte) ∉ s) (tail : List Byte) (slots : ℕ → Option ℕ) :
    textAt (tokenize isDelim stop room (s ++ 0 :: tail) slots).cursor.buf 0 =
      cutText isDelim s := by
  have hs : At ⟨s ++ 0 :: tail, 0⟩ s := ⟨h, tail, rfl⟩
  obtain ⟨rest, hrest⟩ := (hs.reads isDelim).left
  exact (collect_token (strtok_cut isDelim hs) hrest).textAt

theorem tokenize_stopped (isDelim : Byte → Bool) (stop : List Byte → Bool) (room : ℕ)
    (h : (0 : Byte) ∉ s) (tail : List Byte) (slots : ℕ → Option ℕ) :
    (tokenize isDelim stop room (s ++ 0 :: tail) slots).stopped = true ↔
      ((fields isDelim s).takeWhile fun w => !stop w).length < room ∧
        ∃ w ∈ fields isDelim s, stop w = true :=
  collect_stopped (At.reads isDelim ⟨h, tail, rfl⟩)

end StringTokens
