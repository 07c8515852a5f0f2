import LinuxLabs.Execution
import LinuxLabs.LineClient
import LinuxLabs.StringTokens

/-! # The command loop of lab 04
What `fgets` returns is one command, so a line that is longer than the buffer is run in pieces.
The standard input is one that cannot be sought, a terminal or a pipe, and no command reads it: in
a file the `exit` of a child whose `execvp` failed moves the offset, which the parent shares, back
to the first byte that was buffered and not used. -/
namespace ExecChain

open Execution LineInput
open CString hiding strtok
open StringTokens (Collected Tokenized collected fields textAt tokenize tokenize_tokenized)
open LineClient (quits)

def maxCmd : ℕ := 128

def maxArgs : ℕ := 10

def isBlank (b : Byte) : Bool := b = space ∨ b = 9 ∨ b = newline

/-- `fork` fails, or the child ends with this status and leaves the standard input alone; a failed
`execvp` is status 1. -/
inductive Outcome where
  | forkFailed
  | exited (status : ℕ)
  deriving DecidableEq

/-- A round of the loop that is not the last: what `execvp` is given. -/
structure Turn where
  argv : List (List Byte)
  outcome : Outcome
  deriving DecidableEq

/-- `input` and `args` are the arrays of `main`, `out` its standard output. What `fgets` returned,
and the turns, are history. -/
structure State where
  rest : List Byte
  input : List Byte
  args : ℕ → Option ℕ
  out : List Byte
  ended : Bool
  read : List (List Byte)
  turns : List Turn

/-- What the arrays hold before the first line is arbitrary. -/
def initial (stdin input : List Byte) (args : ℕ → Option ℕ) : State :=
  ⟨stdin, input, args, [], false, [], []⟩

def prompt : List Byte := ascii "mini-shell> "

def goodbye : List Byte := ascii "Exiting mini-shell. Goodbye!\n"

def report (name : List Byte) : Outcome → List Byte
  | .forkFailed => []
  | .exited status =>
    ascii "[Parent] Command '" ++ name ++ ascii "' exited with status " ++ decimal status ++
      [newline]

def parseInput (input : List Byte) (args : ℕ → Option ℕ) : Collected :=
  tokenize isBlank (fun _ => false) (maxArgs - 1) input args

/-- The strings of the array up to its `NULL`. -/
def argv (input : List Byte) (args : ℕ → Option ℕ) : List (List Byte) :=
  (((List.range maxArgs).map args).takeWhile Option.isSome).filterMap
    (Option.map (textAt input))

/-- The rest of a round: the words are cut, and run if there are any. -/
def State.command (s : State) (outcome : Outcome) : State :=
  let r := parseInput s.input s.args
  let words := argv r.cursor.buf r.array.slots
  { s with
    input := r.cursor.buf
    args := r.array.slots
    out :=
      match r.array.slots 0 with
      | none => s.out
      | some t => s.out ++ report (textAt r.cursor.buf t) outcome
    turns := s.turns ++ [⟨words, outcome⟩] }

/-- A round of the loop. -/
def next (s : State) (outcome : Outcome) : State :=
  let s := { s with out := s.out ++ prompt }
  match fgets maxCmd s.rest with
  | none => { s with out := s.out ++ goodbye, ended := true }
  | some (piece, rest) =>
    let s := { s with
      rest := rest
      input := overwrite s.input (piece ++ [0])
      read := s.read ++ [piece] }
    if quits s.input then { s with out := s.out ++ goodbye, ended := true }
    else s.command outcome

def machine (stdin input : List Byte) (args : ℕ → Option ℕ) : Machine State Outcome :=
  ⟨initial stdin input args, fun s _ => s.ended = false, next⟩

instance (stdin input : List Byte) (args : ℕ → Option ℕ) (s : State) (o : Outcome) :
    Decidable ((machine stdin input args).Enabled s o) := by
  simp only [machine]
  infer_instance

/-- The words of one piece that there is room for. -/
def words (piece : List Byte) : List (List Byte) :=
  (fields isBlank (cstr piece)).take (maxArgs - 1)

def Turn.answer (t : Turn) : List Byte :=
  match t.argv with
  | [] => []
  | name :: _ => report name t.outcome

def transcript (turns : List Turn) : List Byte := turns.flatMap fun t => prompt ++ t.answer

/-! ## One round -/

variable {stdin input piece : List Byte} {args : ℕ → Option ℕ} {s : State} {o : Outcome}

theorem cstr_terminated (piece tail : List Byte) :
    ∃ tail', piece ++ 0 :: tail = cstr piece ++ 0 :: tail' := by
  unfold cstr
  induction piece with
  | nil => exact ⟨tail, rfl⟩
  | cons b piece ih =>
    by_cases hb : b = 0
    · exact ⟨piece ++ 0 :: tail, by simp [hb]⟩
    · obtain ⟨tail', h⟩ := ih
      exact ⟨tail', by simp [hb, h]⟩

theorem quits_terminated (piece tail : List Byte) : quits (piece ++ 0 :: tail) = quits piece := by
  obtain ⟨tail', h⟩ := cstr_terminated piece tail
  have hcut : cstr (cstr piece ++ 0 :: tail') = cstr piece := by
    rw [cstr_append_of_noNul (cstr_noNul piece)]
    simp [cstr]
  rw [h, quits, hcut, quits]

/-- A list of pointers that is ended by `NULL`, read up to it. -/
theorem strings_eq {slots : ℕ → Option ℕ} {text : ℕ → List Byte} {ws : List (List Byte)} {n : ℕ}
    (hentries : ∀ (k : ℕ) (w : List Byte), ws[k]? = some w → ∃ t, slots k = some t ∧ text t = w)
    (hnull : slots ws.length = none) (hlen : ws.length < n) :
    (((List.range n).map slots).takeWhile Option.isSome).filterMap (Option.map text) = ws := by
  induction ws generalizing slots n with
  | nil =>
    obtain ⟨m, rfl⟩ := Nat.exists_eq_add_of_lt hlen
    have hfirst : slots 0 = none := hnull
    simp [List.range_succ_eq_map, hfirst]
  | cons w ws ih =>
    obtain ⟨m, rfl⟩ : ∃ m, n = m + 1 := Nat.exists_eq_succ_of_ne_zero (by omega)
    obtain ⟨t, hfirst, rfl⟩ := hentries 0 w rfl
    have hrest : (((List.range m).map (slots ∘ Nat.succ)).takeWhile Option.isSome).filterMap
        (Option.map text) = ws :=
      ih (fun k => hentries (k + 1)) hnull (Nat.lt_of_succ_lt_succ hlen)
    rw [List.range_succ_eq_map, List.map_cons, List.map_map, hfirst,
      List.takeWhile_cons_of_pos rfl, List.filterMap_cons, hrest]
    rfl

/-- The command is what is in front of the NUL that `fgets` has put behind the piece. -/
theorem parseInput_words (piece tail : List Byte) (args : ℕ → Option ℕ) :
    Tokenized (parseInput (piece ++ 0 :: tail) args) (words piece) := by
  obtain ⟨tail', h⟩ := cstr_terminated piece tail
  have ht := tokenize_tokenized isBlank (fun _ => false) (maxArgs - 1) (cstr_noNul piece) tail' args
  have hall : collected (fun _ => false) (fields isBlank (cstr piece)) (maxArgs - 1) =
      words piece := by
    rw [collected, List.takeWhile_eq_self_iff.mpr (by simp), words]
  rw [hall, ← h] at ht
  exact ht

theorem words_length (piece : List Byte) : (words piece).length < maxArgs := by
  have h : (words piece).length ≤ maxArgs - 1 := List.length_take_le _ _
  have hmax : 0 < maxArgs := by decide
  omega

theorem command_eq {tail : List Byte} (hs : s.input = piece ++ 0 :: tail) :
    (s.command o).turns = s.turns ++ [⟨words piece, o⟩] ∧
      (s.command o).out = s.out ++ (⟨words piece, o⟩ : Turn).answer := by
  have ht := parseInput_words piece tail s.args
  rw [← hs] at ht
  have hargv : argv (parseInput s.input s.args).cursor.buf (parseInput s.input s.args).array.slots =
      words piece := strings_eq ht.entries ht.null (words_length piece)
  unfold State.command Turn.answer
  dsimp only
  rw [hargv]
  refine ⟨rfl, ?_⟩
  cases hw : words piece with
  | nil =>
    have hnull := ht.null
    rw [hw, List.length_nil] at hnull
    rw [hnull, List.append_nil]
  | cons name later =>
    obtain ⟨t, hfirst, hname⟩ := ht.entries 0 name (by rw [hw]; rfl)
    rw [hfirst, ← hname]

theorem command_ended : (s.command o).ended = s.ended := rfl

/-! ## All rounds -/

/-- The pieces in `done` have been run; `last` is the one that has stopped the loop, if there is
one. -/
structure Invariant (stdin : List Byte) (es : List Outcome) (s : State)
    (done last : List (List Byte)) : Prop where
  reads : Reads maxCmd stdin s.read s.rest
  read : s.read = done ++ last
  going : ∀ p ∈ done, quits p = false
  argvs : s.turns.map Turn.argv = done.map words
  out : s.out = transcript s.turns ++ if s.ended then prompt ++ goodbye else []
  running : s.ended = false → last = [] ∧ s.turns.map Turn.outcome = es
  ended : s.ended = true → (s.rest = [] ∧ last = [] ∨ ∃ p, last = [p] ∧ quits p = true) ∧
    ∃ o, s.turns.map Turn.outcome ++ [o] = es

theorem Invariant.round {es : List Outcome} {done last : List (List Byte)}
    (h : Invariant stdin es s done last) (hs : s.ended = false) (o : Outcome) :
    ∃ done last, Invariant stdin (es ++ [o]) (next s o) done last := by
  obtain ⟨rfl, hes⟩ := h.running hs
  have hread := h.read
  rw [List.append_nil] at hread
  have hout := h.out
  rw [hs, if_neg Bool.false_ne_true, List.append_nil] at hout
  unfold next
  dsimp only
  cases hf : fgets maxCmd s.rest with
  | none =>
    have hrest := (fgets_none (by decide)).mp hf
    refine ⟨done, [], h.reads, h.read, h.going, h.argvs, ?_,
      fun he => Bool.noConfusion he, fun _ => ⟨Or.inl ⟨hrest, rfl⟩, ?_⟩⟩
    · simp [hout]
    · exact ⟨o, by rw [hes]⟩
  | some p =>
    obtain ⟨piece, rest⟩ := p
    have hreads := h.reads.concat hf
    have hinput : overwrite s.input (piece ++ [0]) =
        piece ++ 0 :: s.input.drop (piece ++ [0]).length := by simp [overwrite]
    dsimp only
    rw [hinput, quits_terminated]
    split_ifs with hq
    · refine ⟨done, [piece], hreads, by rw [← hread], h.going, h.argvs, ?_,
        fun he => Bool.noConfusion he, fun _ => ?_⟩
      · simp [hout]
      · exact ⟨Or.inr ⟨piece, rfl, hq⟩, o, by rw [hes]⟩
    · obtain ⟨hturns, hanswer⟩ := command_eq (s := { s with
          out := s.out ++ prompt
          rest := rest
          input := piece ++ 0 :: s.input.drop (piece ++ [0]).length
          read := s.read ++ [piece] }) (o := o) rfl
      refine ⟨done ++ [piece], [], hreads, ?_, ?_, ?_, ?_, fun _ => ⟨rfl, ?_⟩, ?_⟩
      · rw [List.append_nil, ← hread]
        rfl
      · intro p hp
        rcases List.mem_append.mp hp with hp | hp
        · exact h.going p hp
        · rw [List.mem_singleton.mp hp]
          exact Bool.eq_false_iff.mpr hq
      · rw [hturns, List.map_append, List.map_append, h.argvs]
        rfl
      · rw [command_ended, hanswer, hturns]
        simp [transcript, hout, hs]
      · rw [hturns, List.map_append, hes]
        rfl
      · rw [command_ended]
        exact fun he => absurd (hs.symm.trans he) Bool.false_ne_true

theorem initial_invariant (stdin input : List Byte) (args : ℕ → Option ℕ) :
    Invariant stdin [] (initial stdin input args) [] [] := by
  refine ⟨.nil, rfl, ?_, rfl, rfl, fun _ => ⟨rfl, rfl⟩, nofun⟩
  intro p hp
  cases hp

theorem invariant_run (input : List Byte) (args : ℕ → Option ℕ) {es : List Outcome}
    (h : (machine stdin input args).Valid es) :
    ∃ done last, Invariant stdin es ((machine stdin input args).run es) done last := by
  induction es using List.reverseRecOn with
  | nil => exact ⟨[], [], initial_invariant stdin input args⟩
  | append_singleton es o ih =>
    obtain ⟨hv, he⟩ := (Machine.valid_concat es o).mp h
    obtain ⟨done, last, hinv⟩ := ih hv
    rw [Machine.run_concat]
    exact hinv.round he o

/-- Where no line is longer than the array, a loop that has ended has run the lines as they were
typed. -/
theorem Invariant.typed {es : List Outcome} {done last : List (List Byte)}
    (h : Invariant stdin es s done last) (hs : s.ended = true)
    (hfit : ∀ l ∈ lines stdin, l.length ≤ maxCmd - 1) :
    done = (lines stdin).takeWhile fun l => !quits l := by
  have hall := h.reads.whole hfit
  have hgoing : ∀ p ∈ done, (!quits p) = true := by
    intro p hp
    rw [h.going p hp]
    rfl
  rw [hall, h.read, List.append_assoc, List.takeWhile_append_of_pos hgoing]
  obtain ⟨⟨hrest, rfl⟩ | ⟨p, rfl, hp⟩, -⟩ := h.ended hs
  · simp [hrest, lines]
  · simp [hp]

/-- Each round but the last takes something from the input. -/
theorem Invariant.rounds {es : List Outcome} {done last : List (List Byte)}
    (h : Invariant stdin es s done last) : es.length ≤ stdin.length + 1 := by
  have hpieces := h.reads.length_le
  have hturns := congrArg List.length h.argvs
  rw [h.read, List.length_append] at hpieces
  rw [List.length_map, List.length_map] at hturns
  cases hs : s.ended with
  | false =>
    have hes := congrArg List.length (h.running hs).2
    rw [List.length_map] at hes
    omega
  | true =>
    obtain ⟨-, o, hes⟩ := h.ended hs
    have hes := congrArg List.length hes
    rw [List.length_append, List.length_map, List.length_singleton] at hes
    omega

/-- The rounds of a run, with the outcomes `es`. -/
structure Ran (stdin : List Byte) (es : List Outcome) (s : State) : Prop where
  pieces : ∃ done last, Invariant stdin es s done last
  rounds : es.length ≤ stdin.length + 1
  typed : s.ended = true → (∀ l ∈ lines stdin, l.length ≤ maxCmd - 1) →
    s.turns.map Turn.argv = ((lines stdin).takeWhile fun l => !quits l).map words

theorem commands_run (stdin input : List Byte) (args : ℕ → Option ℕ) {es : List Outcome}
    (h : (machine stdin input args).Valid es) :
    Ran stdin es ((machine stdin input args).run es) := by
  obtain ⟨done, last, hinv⟩ := invariant_run input args h
  refine ⟨⟨done, last, hinv⟩, ?_, fun hs hfit => ?_⟩
  · exact hinv.rounds
  · rw [hinv.argvs, hinv.typed hs hfit]

/-- Two commands, the second one in two pieces, and a line that begins with `exit`. -/
def typed : List Byte :=
  ascii "ls -l\n" ++ ascii "echo " ++ List.replicate 125 97 ++ ascii "\nexiting\nls\n"

theorem commands_run_typed :
    Ran typed [.exited 0, .exited 0, .exited 1, .forkFailed]
        ((machine typed [] fun _ => none).run [.exited 0, .exited 0, .exited 1, .forkFailed]) ∧
      ((machine typed [] fun _ => none).run
          [.exited 0, .exited 0, .exited 1, .forkFailed]).turns.map Turn.argv =
        [[ascii "ls", ascii "-l"], [ascii "echo", List.replicate 122 97], [[97, 97, 97]]] :=
  ⟨commands_run typed [] _ (by decide +kernel), by decide +kernel⟩

end ExecChain
