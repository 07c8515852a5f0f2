import LinuxLabs.CString
import LinuxLabs.Descriptors

/-! # The redirections of the shell of lab 06
`handle_redirection` goes through the arguments up to the first operator, opens the word
behind it and ends the arguments there. -/
namespace Redirection

open CString Descriptors

def maxArgs : ℕ := 20

inductive Operator where
  | truncate
  | append
  | input
  deriving DecidableEq

/-- The chain of `strcmp` on one word. -/
def operator (word : List Byte) : Option Operator :=
  if word = ascii ">" then some .truncate
  else if word = ascii ">>" then some .append
  else if word = ascii "<" then some .input
  else none

/-- `STDIN_FILENO` or `STDOUT_FILENO`. -/
def Operator.target : Operator → ℕ
  | .input => 0
  | .truncate | .append => 1

/-- What `perror` says when `open` fails. -/
def Operator.failure : Operator → String
  | .truncate => "open for >"
  | .append => "open for >>"
  | .input => "open for <"

/-- What a descriptor refers to: something the shell was started with, or what `open` made of
a name with the flags of an operator. -/
inductive File where
  | inherited (id : ℕ)
  | opened (op : Operator) (name : List Byte)
  deriving DecidableEq

/-- `char *args[]` up to its first `NULL`, and beyond it. -/
abbrev Args := List (Option (List Byte))

/-- The tokens `strtok` finds in the line. -/
def tokens (line : List Byte) : List (List Byte) :=
  ((cstr line).splitOnP fun b => b = space ∨ b = 9 ∨ b = newline).filter (· ≠ [])

def parseCommand (line : List Byte) : Args :=
  ((tokens line).take (maxArgs - 1)).map some ++ [none]

/-- What a program sees of its arguments. -/
def argv (args : Args) : List (List Byte) := (args.takeWhile Option.isSome).filterMap id

section

-- `canOpen` is what `open` says to a name, `fd` the descriptor it returns.
variable (canOpen : Operator → List Byte → Bool) (t : Table File) (fd : ℕ)

/-- `open`, `dup2` and `close`. -/
def redirect (op : Operator) (name : List Byte) : Table File :=
  runAll (Function.update t fd (some (.opened op name))) [.dup2 fd op.target, .close fd]

/-- The loop from `args[i]` on, which is the head of `rest`; an error ends the process. -/
def handleFrom (args : Args) (i : ℕ) : Args → Except String (Table File × Args)
  | [] => .ok (t, args)
  | none :: _ => .ok (t, args)
  | some word :: rest =>
    match operator word with
    | none => handleFrom args (i + 1) rest
    | some op =>
      match rest.head?.join with
      | none => .error op.failure
      | some name =>
        if canOpen op name then .ok (redirect t fd op name, args.set i none)
        else .error op.failure

def handleRedirection (args : Args) : Except String (Table File × Args) :=
  handleFrom canOpen t fd args 0 args

end

/-! ## What the operators ask for -/

/-- A word that is no operator. -/
structure Name where
  text : List Byte
  plain : operator text = none
  deriving DecidableEq

inductive Item where
  | word (word : Name)
  | redirect (op : Operator) (file : Name)
  deriving DecidableEq

def Operator.word : Operator → List Byte
  | .truncate => ascii ">"
  | .append => ascii ">>"
  | .input => ascii "<"

def Item.words : Item → List (List Byte)
  | .word w => [w.text]
  | .redirect op file => [op.word, file.text]

def Item.target : Item → Option ℕ
  | .word _ => none
  | .redirect op _ => some op.target

/-- The files the operators of the descriptor `k` name, in order. -/
def files (k : ℕ) (items : List Item) : List File :=
  items.filterMap fun item =>
    match item with
    | .word _ => none
    | .redirect op file => if op.target = k then some (.opened op file.text) else none

/-- The last one counts. -/
def attached (t : Table File) (k : ℕ) (items : List Item) : Option File :=
  match (files k items).getLast? with
  | some file => some file
  | none => t k

def ordinary (items : List Item) : List (List Byte) :=
  items.filterMap fun item =>
    match item with
    | .word w => some w.text
    | .redirect _ _ => none

def Redirected (t : Table File) (items : List Item) : Except String (Table File × Args) → Prop
  | .error _ => False
  | .ok (t', args) => t' 0 = attached t 0 items ∧ t' 1 = attached t 1 items ∧ none ∈ args ∧
      argv args = ordinary items

instance (t : Table File) (items : List Item) (r : Except String (Table File × Args)) :
    Decidable (Redirected t items r) := by
  unfold Redirected
  split <;> infer_instance

/-- What the shell starts with: it opened nothing itself, and the standard descriptors are there. -/
structure Inherited (t : Table File) : Prop where
  inherited : ∀ k file, t k = some file → ∃ id, file = .inherited id
  standard : ∀ k ≤ 2, t k ≠ none

/-- From the first operator on there are only operators of its descriptor, and the last of them
asks for the same as the first. -/
def FirstDecides : List Item → Prop
  | [] => True
  | .word _ :: items => FirstDecides items
  | .redirect op file :: items => (∀ item ∈ items, item.target = some op.target) ∧
      ∀ last ∈ (files op.target items).getLast?, last = .opened op file.text

instance decidableFirstDecides : (items : List Item) → Decidable (FirstDecides items)
  | [] => isTrue trivial
  | .word _ :: items => decidableFirstDecides items
  | .redirect _ _ :: _ => inferInstanceAs (Decidable (_ ∧ _))

variable {canOpen : Operator → List Byte → Bool} {t : Table File} {fd : ℕ}

/-! ## The scan -/

theorem operator_word (op : Operator) : operator op.word = some op := by
  cases op <;> decide

theorem handleFrom_words (args : Args) (i : ℕ) (ws : List Name) (rest : Args) :
    handleFrom canOpen t fd args i ((ws.map Name.text).map some ++ rest) =
      handleFrom canOpen t fd args (i + ws.length) rest := by
  induction ws generalizing i with
  | nil => rfl
  | cons w ws ih =>
    rw [List.map_cons, List.map_cons, List.cons_append, handleFrom, w.plain]
    dsimp only
    rw [ih, List.length_cons]
    congr 1
    omega

theorem argv_words (ws : List (List Byte)) (rest : Args) :
    argv (ws.map some ++ none :: rest) = ws := by
  unfold argv
  rw [List.takeWhile_append_of_pos (by simp), List.takeWhile_cons_of_neg (by simp),
    List.append_nil, List.filterMap_map]
  simp

/-- The words before the first operator, and the rest. -/
theorem split_items (items : List Item) : (∃ ws : List Name, items = ws.map Item.word) ∨
    ∃ (ws : List Name) (op : Operator) (file : Name) (rest : List Item),
      items = ws.map Item.word ++ .redirect op file :: rest := by
  induction items with
  | nil => exact Or.inl ⟨[], rfl⟩
  | cons item items ih =>
    cases item with
    | word w =>
      rcases ih with ⟨ws, rfl⟩ | ⟨ws, op, file, rest, rfl⟩
      · exact Or.inl ⟨w :: ws, rfl⟩
      · exact Or.inr ⟨w :: ws, op, file, rest, rfl⟩
    | redirect op file => exact Or.inr ⟨[], op, file, items, rfl⟩

theorem words_map (ws : List Name) :
    (ws.map Item.word).flatMap Item.words = ws.map Name.text := by
  induction ws with
  | nil => rfl
  | cons w ws ih =>
    rw [List.map_cons, List.flatMap_cons, ih]
    rfl

/-! ## What is found before the first operator -/

theorem ordinary_append (ws : List Name) (items : List Item) :
    ordinary (ws.map Item.word ++ items) = ws.map Name.text ++ ordinary items := by
  induction ws with
  | nil => rfl
  | cons w ws ih => exact congrArg (w.text :: ·) ih

theorem files_append (k : ℕ) (ws : List Name) (items : List Item) :
    files k (ws.map Item.word ++ items) = files k items := by
  induction ws with
  | nil => rfl
  | cons w ws ih => exact ih

theorem firstDecides_append (ws : List Name) (items : List Item) :
    FirstDecides (ws.map Item.word ++ items) ↔ FirstDecides items := by
  induction ws with
  | nil => exact Iff.rfl
  | cons w ws ih => exact ih

theorem files_eq_nil {k : ℕ} {items : List Item} :
    files k items = [] ↔ ∀ item ∈ items, item.target ≠ some k := by
  rw [files, List.filterMap_eq_nil_iff]
  refine forall₂_congr fun item _ => ?_
  cases item with
  | word w => simp [Item.target]
  | redirect op file => simp [Item.target]

theorem ordinary_eq_nil {items : List Item} :
    ordinary items = [] ↔ ∀ item ∈ items, item.target ≠ none := by
  rw [ordinary, List.filterMap_eq_nil_iff]
  refine forall₂_congr fun item _ => ?_
  cases item with
  | word w => simp [Item.target]
  | redirect op file => simp [Item.target]

theorem mem_files {k : ℕ} {items : List Item} {file : File} (h : file ∈ files k items) :
    ∃ op name, file = .opened op name := by
  obtain ⟨item, -, hitem⟩ := List.mem_filterMap.mp h
  cases item with
  | word w => cases hitem
  | redirect op name =>
    dsimp only at hitem
    split at hitem
    · exact ⟨op, name.text, (Option.some.inj hitem).symm⟩
    · cases hitem

/-! ## The descriptors -/

theorem redirect_target (h : Inherited t) (hfd : t fd = none) (op : Operator) (name : List Byte) :
    redirect t fd op name op.target = some (.opened op name) := by
  have hne : op.target ≠ fd := by
    rintro rfl
    exact h.standard op.target (by cases op <;> decide) hfd
  simp [redirect, Call.run, hne]

theorem redirect_other (h : Inherited t) (hfd : t fd = none) {op : Operator} {name : List Byte}
    {k : ℕ} (hk : k ≤ 2) (hne : k ≠ op.target) : redirect t fd op name k = t k := by
  have hkfd : k ≠ fd := by
    rintro rfl
    exact h.standard k hk hfd
  simp [redirect, Call.run, hne, hkfd]

/-- A descriptor that was started with is left alone only where no operator is for it. -/
theorem attached_eq (h : Inherited t) {k : ℕ} {items : List Item} :
    t k = attached t k items ↔ ∀ item ∈ items, item.target ≠ some k := by
  rw [← files_eq_nil, attached]
  constructor
  · intro heq
    by_contra hne
    obtain ⟨file, hfile⟩ := List.getLast?_isSome.mpr hne |> Option.isSome_iff_exists.mp
    rw [hfile] at heq
    obtain ⟨id, rfl⟩ := h.inherited k file heq
    obtain ⟨op, name, hopened⟩ := mem_files (List.mem_of_getLast? hfile)
    cases hopened
  · intro hnil
    rw [hnil]
    rfl

theorem attached_cons (t : Table File) (op : Operator) (file : Name) (items : List Item) :
    some (File.opened op file.text) = attached t op.target (.redirect op file :: items) ↔
      ∀ last ∈ (files op.target items).getLast?, last = .opened op file.text := by
  have hcons : files op.target (.redirect op file :: items) =
      .opened op file.text :: files op.target items := by
    simp [files]
  rw [attached, hcons, List.getLast?_cons]
  cases (files op.target items).getLast? with
  | none => simp
  | some last => simp [eq_comm]

/-! ## The two cases of the scan -/

variable {items : List Item}

theorem redirected_words (h : Inherited t) (ws : List Name) :
    Redirected t (ws.map Item.word)
      (handleRedirection canOpen t fd ((ws.map Name.text).map some ++ [none])) := by
  have hnone (k : ℕ) : t k = attached t k (ws.map Item.word) := by
    apply (attached_eq h).mpr
    intro item hitem
    obtain ⟨w, -, rfl⟩ := List.mem_map.mp hitem
    simp [Item.target]
  have hord := ordinary_append ws []
  rw [List.append_nil] at hord
  rw [handleRedirection, handleFrom_words, handleFrom]
  refine ⟨hnone 0, hnone 1, by simp, ?_⟩
  rw [argv_words, hord]
  exact (List.append_nil _).symm

theorem handle_redirect (ws : List Name) {op : Operator} {file : Name} {rest : Args}
    (hopen : canOpen op file.text = true) :
    handleRedirection canOpen t fd
        ((ws.map Name.text).map some ++ some op.word :: some file.text :: rest) =
      .ok (redirect t fd op file.text,
        (ws.map Name.text).map some ++ none :: some file.text :: rest) := by
  rw [handleRedirection, handleFrom_words, handleFrom, operator_word]
  simp [hopen]

theorem target_iff (op : Operator) (item : Item) : item.target = some op.target ↔
    item.target ≠ none ∧ ∀ k ≤ 1, k ≠ op.target → item.target ≠ some k := by
  cases item with
  | word w => simp [Item.target]
  | redirect op' file =>
    have hle : op'.target ≤ 1 := by cases op' <;> decide
    simp only [Item.target, ne_eq, Option.some.injEq, reduceCtorEq, not_false_eq_true, true_and]
    constructor
    · intro heq k _ hne
      omega
    · intro hother
      by_contra hne
      exact hother op'.target hle hne rfl

theorem redirected_first (h : Inherited t) (hfd : t fd = none) (ws : List Name) {op : Operator}
    {file : Name} {rest : Args} (hopen : canOpen op file.text = true) :
    Redirected t (ws.map Item.word ++ .redirect op file :: items) (handleRedirection canOpen t fd
        ((ws.map Name.text).map some ++ some op.word :: some file.text :: rest)) ↔
      FirstDecides (.redirect op file :: items) := by
  have hall (k : ℕ) : attached t k (ws.map Item.word ++ .redirect op file :: items) =
      attached t k (.redirect op file :: items) := by
    rw [attached, files_append, attached]
  have hown : redirect t fd op file.text op.target =
      attached t op.target (.redirect op file :: items) ↔
        ∀ last ∈ (files op.target items).getLast?, last = .opened op file.text := by
    rw [redirect_target h hfd, attached_cons]
  have hother (k : ℕ) (hk : k ≤ 1) (hne : k ≠ op.target) : redirect t fd op file.text k =
      attached t k (.redirect op file :: items) ↔ ∀ item ∈ items, item.target ≠ some k := by
    rw [redirect_other h hfd (by omega) hne, attached_eq h]
    simp [Item.target, Ne.symm hne]
  have hwords : argv ((ws.map Name.text).map some ++ none :: some file.text :: rest) =
      ordinary (ws.map Item.word ++ .redirect op file :: items) ↔
        ∀ item ∈ items, item.target ≠ none := by
    rw [argv_words, ordinary_append, List.self_eq_append_right, ← ordinary_eq_nil]
    exact Iff.rfl
  rw [handle_redirect ws hopen]
  simp only [Redirected, hall, hwords]
  constructor
  · rintro ⟨hin, hout, -, hplain⟩
    have hboth : ∀ k ≤ 1, redirect t fd op file.text k =
        attached t k (.redirect op file :: items) := by
      intro k hk
      rcases Nat.le_one_iff_eq_zero_or_eq_one.mp hk with rfl | rfl
      · exact hin
      · exact hout
    refine ⟨fun item hitem => (target_iff op item).mpr ⟨hplain item hitem, ?_⟩, ?_⟩
    · intro k hk hne
      exact (hother k hk hne).mp (hboth k hk) item hitem
    · exact hown.mp (hboth op.target (by cases op <;> decide))
  · rintro ⟨hsame, hlast⟩
    have hboth : ∀ k ≤ 1, redirect t fd op file.text k =
        attached t k (.redirect op file :: items) := by
      intro k hk
      by_cases hne : k = op.target
      · subst hne
        exact hown.mpr hlast
      · apply (hother k hk hne).mpr
        intro item hitem
        exact ((target_iff op item).mp (hsame item hitem)).2 k hk hne
    refine ⟨hboth 0 (by omega), hboth 1 (by omega), by simp, fun item hitem => ?_⟩
    exact ((target_iff op item).mp (hsame item hitem)).1

/-- The redirections a line asks for are those that are made exactly where the first one
decides. -/
theorem redirected_iff (h : Inherited t) (hfd : t fd = none) {line : List Byte}
    (hline : (tokens line).take (maxArgs - 1) = items.flatMap Item.words)
    (hopen : ∀ op file, .redirect op file ∈ items → canOpen op file.text = true) :
    Redirected t items (handleRedirection canOpen t fd (parseCommand line)) ↔
      FirstDecides items := by
  rw [parseCommand, hline]
  rcases split_items items with ⟨ws, rfl⟩ | ⟨ws, op, file, rest, rfl⟩
  · rw [words_map]
    apply iff_of_true (redirected_words h ws)
    have := firstDecides_append ws []
    rw [List.append_nil] at this
    exact this.mpr trivial
  · have hwords : (ws.map Item.word ++ .redirect op file :: rest).flatMap Item.words =
        ws.map Name.text ++ op.word :: file.text :: rest.flatMap Item.words := by
      rw [List.flatMap_append, words_map]
      rfl
    rw [hwords, firstDecides_append, List.map_append, List.append_assoc]
    exact redirected_first h hfd ws (hopen op file (by simp))

/-- The descriptors of a shell that has only the standard ones. -/
def standard : Table File := fun k => if k ≤ 2 then some (.inherited k) else none

theorem standard_inherited : Inherited standard := by
  constructor
  · intro k file hk
    unfold standard at hk
    split at hk
    · exact ⟨k, (Option.some.inj hk).symm⟩
    · cases hk
  · intro k hk
    simp [standard, hk]

/-- The lab's first example. -/
theorem redirected_echo : Redirected standard
    [.word ⟨ascii "echo", by decide⟩, .word ⟨ascii "Hello", by decide⟩,
      .redirect .truncate ⟨ascii "hello.txt", by decide⟩]
    (handleRedirection (fun _ _ => true) standard 3
      (parseCommand (ascii "echo Hello > hello.txt"))) :=
  (redirected_iff standard_inherited rfl (by decide +kernel) (fun _ _ _ => rfl)).mpr
    (by decide +kernel)

/-- The example the shell prints at its start. -/
def bothDirections : List Item :=
  [.word ⟨ascii "cat", by decide⟩, .redirect .input ⟨ascii "input.txt", by decide⟩,
    .redirect .truncate ⟨ascii "output.txt", by decide⟩]

theorem output_not_redirected :
    (tokens (ascii "cat < input.txt > output.txt")).take (maxArgs - 1) =
      bothDirections.flatMap Item.words ∧
    ¬ Redirected standard bothDirections (handleRedirection (fun _ _ => true) standard 3
      (parseCommand (ascii "cat < input.txt > output.txt"))) := by
  decide +kernel

end Redirection
