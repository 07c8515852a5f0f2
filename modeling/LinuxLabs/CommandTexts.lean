import LinuxLabs.BackgroundJobs
import LinuxLabs.BackgroundParser
import LinuxLabs.PipelineEntries
import LinuxLabs.PipelineParser

/-! # The command text in the job tables (labs 07 and 12)
Both shells give `add_job` the buffer that their parser has cut with `strtok`. Whatever `jobs`, `bg`
and the SIGCHLD handlers print of a job is the text of its entry. -/
namespace CommandTexts

open Execution CString
open StringTokens (textAt cutText fields Starts)
open BackgroundParser (isBlank ampersand)

/-- The line without a newline, an `&` and blanks that end it. -/
def AsTyped (line text : List Byte) : Prop :=
  ∃ pad amp behind, line = text ++ (pad ++ (amp ++ behind)) ∧ (∀ b ∈ pad, isBlank b = true) ∧
    (amp = [] ∨ amp = ampersand) ∧ ∀ b ∈ behind, isBlank b = true

/-- What `fgets` leaves in a `line[256]`. -/
def Read (line : List Byte) : Prop := (0 : Byte) ∉ line ∧ line.length < 256

instance (line : List Byte) : Decidable (Read line) := inferInstanceAs (Decidable (_ ∧ _))

theorem asTyped_self (line : List Byte) : AsTyped line line :=
  ⟨[], [], [], by simp, by simp, Or.inl rfl, by simp⟩

theorem asTyped_ampersand (text : List Byte) : AsTyped (text ++ ampersand) text :=
  ⟨[], ampersand, [], by simp, by simp, Or.inr rfl, by simp⟩

/-- A line is as typed only up to blanks and `&`. -/
theorem AsTyped.rest {text rest : List Byte} (h : AsTyped (text ++ rest) text) :
    ∀ b ∈ rest, isBlank b = true ∨ b ∈ ampersand := by
  obtain ⟨pad, amp, behind, heq, hpad, hamp, hbehind⟩ := h
  intro b hb
  rw [List.append_cancel_left heq] at hb
  rcases List.mem_append.mp hb with hb | hb
  · exact Or.inl (hpad b hb)
  rcases List.mem_append.mp hb with hb | hb
  · rcases hamp with rfl | rfl
    · cases hb
    · exact Or.inr hb
  · exact Or.inl (hbehind b hb)

theorem print_text {size : ℕ} [NeZero size] {s : List Byte} (h : (0 : Byte) ∉ s)
    (hlen : s.length < size) : (CharArray.print s : CharArray size).text = s := by
  rw [CharArray.print_text h]
  exact List.take_of_length_le (by omega)

/-! ## Lab 07 -/

namespace Background

open BackgroundJobs (Job noJobs addJob freeSlot sigchldHandler maxLen)

/-- `parse_command` as `main` calls it. -/
def parse (line : List Byte) : BackgroundParser.Parsed :=
  BackgroundParser.parseCommand (line ++ 0 :: []) fun _ => none

/-- `bg` is set, and the line is not skipped for want of a command. -/
def Tracked (line : List Byte) : Prop := (parse line).bg = true ∧ (parse line).args.slots 0 ≠ none

/-- `add_job(pid, line)` gets what the parser has left of the line. -/
def recorded (line : List Byte) : List Byte := textAt (parse line).line 0

/-- The table; `typed` is history: the line for which a slot was filled last. -/
structure State where
  jobs : List Job
  typed : ℕ → Option (List Byte)

inductive Event where
  | launch (pid : ℕ) (line : List Byte)
  | reap (pid : ℕ)
  deriving DecidableEq

def Enabled (_ : State) : Event → Prop
  | .launch _ line => Read line ∧ Tracked line
  | .reap _ => True

def next (s : State) : Event → State
  | .launch pid line =>
    ⟨addJob s.jobs pid (recorded line),
      match freeSlot s.jobs with
      | none => s.typed
      | some i => Function.update s.typed i (some line)⟩
  | .reap pid => { s with jobs := sigchldHandler s.jobs pid }

def machine : Machine State Event := ⟨⟨noJobs, fun _ => none⟩, Enabled, next⟩

def TextsRight (s : State) : Prop :=
  ∀ (i : ℕ) (job : Job) (line : List Byte), s.jobs[i]? = some job → s.typed i = some line →
    AsTyped line job.cmd.text

/-- A tracked line that finds a slot is one word and the `&`. -/
def OneWord (s : State) : Event → Prop
  | .launch _ line => freeSlot s.jobs ≠ none → (fields isBlank line).length = 2
  | .reap _ => True

instance (line : List Byte) : Decidable (Tracked line) := inferInstanceAs (Decidable (_ ∧ _))

instance (s : State) (e : Event) : Decidable (machine.Enabled s e) := by
  cases e <;> simp only [machine, Enabled] <;> infer_instance

instance (s : State) (e : Event) : Decidable (OneWord s e) := by
  cases e <;> simp only [OneWord] <;> infer_instance

variable {s : State} {e : Event} {line : List Byte}

theorem recorded_eq (h : (0 : Byte) ∉ line) : recorded line = cutText isBlank line :=
  StringTokens.tokenize_cut isBlank BackgroundParser.isAmpersand (BackgroundParser.maxArgs - 1) h []
    fun _ => none

/-- A command, and then the `&`. -/
theorem tracked_fields (h : (0 : Byte) ∉ line) (ht : Tracked line) :
    ∃ word words, fields isBlank line = word :: words ∧ ampersand ∈ words := by
  obtain ⟨hbg, hargs⟩ := ht
  obtain ⟨-, w, hw, hamp⟩ := (StringTokens.tokenize_stopped isBlank BackgroundParser.isAmpersand
    (BackgroundParser.maxArgs - 1) h [] fun _ => none).mp hbg
  have hstored := StringTokens.tokenize_tokenized isBlank BackgroundParser.isAmpersand
    (BackgroundParser.maxArgs - 1) h [] fun _ => none
  cases hf : fields isBlank line with
  | nil =>
    rw [hf] at hw
    cases hw
  | cons word words =>
    rw [hf] at hw hstored
    refine ⟨word, words, rfl, ?_⟩
    have hword : BackgroundParser.isAmpersand word = false := by
      by_contra hstop
      apply hargs
      have hnone : StringTokens.collected BackgroundParser.isAmpersand (word :: words)
          (BackgroundParser.maxArgs - 1) = [] := by
        simp [StringTokens.collected, hstop]
      rw [hnone] at hstored
      exact hstored.null
    rcases List.mem_cons.mp hw with rfl | hw
    · rw [hamp] at hword
      cases hword
    · simp only [BackgroundParser.isAmpersand, decide_eq_true_eq] at hamp
      rwa [hamp] at hw

theorem fields_ampersand {pad behind : List Byte} (hpad : ∀ b ∈ pad, isBlank b = true)
    (hbehind : ∀ b ∈ behind, isBlank b = true) :
    fields isBlank (pad ++ (ampersand ++ behind)) = [ampersand] := by
  have hs : Starts isBlank (pad ++ (ampersand ++ behind)) pad ampersand behind :=
    ⟨rfl, hpad, by decide, by decide +kernel, fun d hd => hbehind d (List.mem_of_mem_head? hd)⟩
  rw [hs.fields, StringTokens.fields_all hbehind]

/-- The recorded text is the first word with the blanks before it. -/
theorem asTyped_recorded_iff (h : (0 : Byte) ∉ line) (ht : Tracked line) :
    AsTyped line (recorded line) ↔ (fields isBlank line).length = 2 := by
  obtain ⟨word, words, hf, hamp⟩ := tracked_fields h ht
  obtain ⟨pad, rest, hs, hrest⟩ := StringTokens.fields_eq_cons hf
  rw [recorded_eq h, hs.cutText, hf, List.length_cons]
  constructor
  · rintro ⟨pad', amp, behind, heq, hpad, ham, hbehind⟩
    rw [hs.eq, ← List.append_assoc] at heq
    rw [List.append_cancel_left heq] at hrest
    rcases ham with rfl | rfl
    · rw [StringTokens.fields_pad hpad, List.nil_append, StringTokens.fields_all hbehind] at hrest
      rw [← hrest] at hamp
      cases hamp
    · rw [← hrest, fields_ampersand hpad hbehind, List.length_singleton]
  · intro hlen
    obtain ⟨w, rfl⟩ := List.length_eq_one_iff.mp (Nat.succ.inj hlen)
    obtain rfl := List.mem_singleton.mp hamp
    obtain ⟨pad', behind, hs', hbehind⟩ := StringTokens.fields_eq_cons hrest
    refine ⟨pad', ampersand, behind, ?_, hs'.pad, Or.inr rfl, StringTokens.fields_eq_nil hbehind⟩
    rw [hs.eq, hs'.eq, List.append_assoc]

/-- Nothing is lost in the copy. -/
theorem recorded_text (h : Read line) :
    (CharArray.print (recorded line) : CharArray maxLen).text = recorded line := by
  have hcut := StringTokens.cutText_initial isBlank line
  rw [← recorded_eq h.1] at hcut
  exact print_text (fun hz => h.1 (hcut.subset hz)) (Nat.lt_of_le_of_lt hcut.length_le h.2)

/-- A launch in a table with room adds one text, and no other step changes any. -/
theorem textsRight_next (hs : TextsRight s) (he : Enabled s e) :
    TextsRight (next s e) ↔ OneWord s e := by
  cases e with
  | launch pid line =>
    obtain ⟨hread, htracked⟩ := he
    cases hfree : freeSlot s.jobs with
    | none =>
      have hsame : next s (.launch pid line) = s := by
        simp only [next, addJob, hfree]
      rw [hsame]
      exact iff_of_true hs fun h => absurd hfree h
    | some i =>
      obtain ⟨hi, -, -⟩ := BackgroundJobs.freeSlot_some hfree
      have hright := asTyped_recorded_iff hread.1 htracked
      have hnext : next s (.launch pid line) =
          ⟨s.jobs.set i ⟨pid, CharArray.print (recorded line), true⟩,
            Function.update s.typed i (some line)⟩ := by
        simp only [next, addJob, hfree]
      rw [hnext]
      constructor
      · intro h _
        apply hright.mp
        have hslot := h i _ line (List.getElem?_set_self hi) (Function.update_self ..)
        rwa [recorded_text hread] at hslot
      · intro h k job typed hjob htyped
        dsimp only at hjob htyped
        by_cases hk : k = i
        · subst hk
          rw [List.getElem?_set_self hi] at hjob
          rw [Function.update_self] at htyped
          cases hjob
          cases htyped
          rw [recorded_text hread]
          exact hright.mpr (h (by rw [hfree]; exact Option.some_ne_none _))
        · rw [List.getElem?_set_ne (Ne.symm hk)] at hjob
          rw [Function.update_of_ne hk] at htyped
          exact hs k job typed hjob htyped
  | reap pid =>
    refine iff_of_true (fun k job typed hjob htyped => ?_) trivial
    simp only [next, sigchldHandler] at hjob
    split at hjob
    · exact hs k job typed hjob htyped
    · obtain ⟨old, hold, rfl⟩ := KeyedTable.modify_some hjob
      have htext := hs k old typed hold htyped
      split
      · exact htext
      · exact htext

theorem texts_right_iff {es : List Event} (h : machine.Valid es) :
    machine.Along (fun s e => TextsRight (next s e)) es ↔ machine.Along OneWord es := by
  have hstart : TextsRight machine.initial := fun i job line _ hline => nomatch hline
  exact (Machine.along_iff_reached hstart (fun es e _ he hp => textsRight_next hp he) h).symm

end Background

/-! ## Lab 12 -/

namespace Pipeline

open PipelineShell (Phase Job cutLine bar)
open JobTable (maxJobs isBackground)

/-- The line without the `&` that `main` takes off. -/
def strip (line : List Byte) : List Byte := if isBackground line then line.dropLast else line

/-- The shell; `current` is the line it is about, and `entered` has the lines of the entries. -/
structure State where
  shell : PipelineShell.State
  current : List Byte
  entered : List (List Byte)

/-- Lines come from `fgets`. -/
def Types : PipelineShell.Event → Prop
  | .launch line => Read line
  | _ => True

def Enabled (s : State) (e : PipelineShell.Event) : Prop :=
  PipelineShell.Enabled s.shell e ∧ Types e

def next (s : State) (e : PipelineShell.Event) : State where
  shell := PipelineShell.next s.shell e
  current := match e with
    | .launch line => line
    | _ => s.current
  entered := match e with
    | .addJob => if s.shell.jobs.length < maxJobs then s.entered ++ [s.current] else s.entered
    | _ => s.entered

def machine (shellPgid : ℕ) : Machine State PipelineShell.Event :=
  ⟨⟨PipelineShell.initial shellPgid, [], []⟩, Enabled, next⟩

def texts (jobs : List Job) : List (List Byte) := jobs.map fun job => job.cmd.text

def TextsRight (s : State) : Prop := List.Forall₂ AsTyped s.entered (texts s.shell.jobs)

/-- A line that is entered while there is room has no bar behind its first command. -/
def OneStage (s : State) : PipelineShell.Event → Prop
  | .addJob => s.shell.jobs.length < maxJobs → bar ∉ (strip s.current).dropWhile (· = bar)
  | _ => True

instance (e : PipelineShell.Event) : Decidable (Types e) := by
  casesm PipelineShell.Event <;> simp only [Types] <;> infer_instance

instance (shellPgid : ℕ) (s : State) (e : PipelineShell.Event) :
    Decidable ((machine shellPgid).Enabled s e) := inferInstanceAs (Decidable (_ ∧ _))

instance (s : State) (e : PipelineShell.Event) : Decidable (OneStage s e) := by
  casesm PipelineShell.Event <;> simp only [OneStage] <;> infer_instance

variable {s : State} {e : PipelineShell.Event} {line : List Byte} {shellPgid : ℕ}

theorem strip_append (line : List Byte) : ∃ amp, line = strip line ++ amp ∧
    (amp = [] ∨ amp = ampersand) := by
  by_cases h : isBackground line = true
  · have hlast : line.getLast? = (ascii "&").head? := by simpa [isBackground] using h
    refine ⟨ampersand, ?_, Or.inr rfl⟩
    rw [strip, if_pos h]
    exact (List.dropLast_append_getLast? _ hlast).symm
  · refine ⟨[], ?_, Or.inl rfl⟩
    rw [strip, if_neg h, List.append_nil]

theorem asTyped_strip (line : List Byte) : AsTyped line (strip line) := by
  obtain ⟨amp, heq, hamp⟩ := strip_append line
  exact ⟨[], amp, [], by simpa using heq, by simp, hamp, by simp⟩

/-- The cut takes away a bar, if it takes away anything. -/
theorem asTyped_cutLine_iff (line : List Byte) :
    AsTyped line (cutLine (strip line)) ↔ bar ∉ (strip line).dropWhile (· = bar) := by
  have hdrop : (strip line).dropWhile (· = bar) =
      (strip line).dropWhile PipelineParser.isBar := rfl
  rw [PipelineParser.cutLine_eq, hdrop]
  rcases StringTokens.all_or_starts PipelineParser.isBar (strip line) with
    hall | ⟨pad, word, rest, hs⟩
  · rw [StringTokens.cutText_all hall, List.dropWhile_eq_nil_iff.mpr hall]
    exact iff_of_true (asTyped_strip line) (by simp)
  · obtain ⟨-, hbody, -, -⟩ := hs.takeWhile
    have hword : bar ∉ word := fun hb => absurd (hs.word bar hb) (by decide)
    rw [hs.cutText, hbody, List.mem_append, not_or]
    constructor
    · intro h
      refine ⟨hword, fun hb => ?_⟩
      obtain ⟨amp, heq, -⟩ := strip_append line
      rw [hs.eq, ← List.append_assoc, List.append_assoc] at heq
      rw [heq] at h
      have hbar := h.rest bar (List.mem_append_left _ hb)
      exact absurd hbar (by decide)
    · rintro ⟨-, hrest⟩
      have hnil : rest = [] := by
        cases rest with
        | nil => rfl
        | cons d rest =>
          have hd : d = bar := by simpa [PipelineParser.isBar] using hs.rest d rfl
          exact absurd (hd ▸ List.mem_cons_self) hrest
      have hall : strip line = pad ++ word := by rw [hs.eq, hnil, List.append_nil]
      rw [← hall]
      exact asTyped_strip line

/-! ### What the steps of the shell do to its line and its table -/

def lineOf : Phase → Option (List Byte)
  | .forking line _ _ _ | .grouping line _ _ _ _ => some line
  | .prompt | .waiting _ | .continuing _ _ _ | .assigning _ _ _ => none

theorem texts_setState (jobs : List Job) (idx : ℕ) (st : JobTable.JobState) :
    texts (JobTable.setState jobs idx st) = texts jobs :=
  KeyedTable.map_modify (by intro job; rfl) jobs idx

theorem texts_record (jobs : List Job) (key : ℤ) (st : ChildProcess.Status) :
    texts (JobTable.record jobs key st) = texts jobs := by
  unfold JobTable.record
  split
  · rfl
  · apply texts_setState

theorem next_texts (shell : PipelineShell.State) (he : e ≠ .addJob) :
    texts (PipelineShell.next shell e).jobs = texts shell.jobs := by
  cases e with
  | addJob => exact absurd rfl he
  | launch | fork | forkFailed | parentSetpgid | kill =>
    simp only [PipelineShell.next]
    split <;> rfl
  | childSetpgid | exec | change | wait | noChild => rfl
  | command =>
    simp only [PipelineShell.next]
    split
    · rfl
    · split <;> rfl
  | handle =>
    simp only [PipelineShell.next]
    split
    · rfl
    · split
      · rfl
      · apply texts_record
  | assign =>
    simp only [PipelineShell.next]
    split
    · apply texts_setState
    · rfl

theorem next_lineOf (shell : PipelineShell.State) (he : ∀ line, e ≠ .launch line) :
    ∀ l ∈ lineOf (PipelineShell.next shell e).phase, l ∈ lineOf shell.phase := by
  cases e with
  | launch line => exact absurd rfl (he line)
  | fork | forkFailed | parentSetpgid | kill =>
    simp only [PipelineShell.next]
    split
    · next hp => simp [hp, lineOf]
    · simp
  | addJob | assign =>
    simp only [PipelineShell.next]
    split
    · split <;> simp [lineOf]
    · simp
  | childSetpgid | exec | change => simp [PipelineShell.next]
  | wait | noChild => simp [PipelineShell.next, lineOf]
  | handle j => rw [(PipelineEntries.handle_phase shell j).1]; simp
  | command =>
    simp only [PipelineShell.next]
    split
    · simp
    · split <;> simp [lineOf]

/-- The buffer that the shell works on is the current line, cut. -/
def Current (s : State) : Prop :=
  ∀ l ∈ lineOf s.shell.phase, l = cutLine (strip s.current) ∧ Read s.current

theorem current_next (hs : Current s) (he : Enabled s e) : Current (next s e) := by
  intro l hl
  by_cases hlaunch : ∃ line, e = .launch line
  · obtain ⟨line, rfl⟩ := hlaunch
    refine ⟨?_, he.2⟩
    simp only [next, PipelineShell.next] at hl ⊢
    rw [strip]
    split at hl
    · next hb => rw [if_pos hb]; simpa [lineOf, eq_comm] using hl
    · next hb => rw [if_neg hb]; simpa [lineOf, eq_comm] using hl
  · have hsame : (next s e).current = s.current := by
      cases e with
      | launch line => exact absurd ⟨line, rfl⟩ hlaunch
      | _ => rfl
    rw [hsame]
    exact hs l (next_lineOf s.shell (fun line h => hlaunch ⟨line, h⟩) l hl)

theorem forall₂_concat {α β : Type*} {R : α → β → Prop} {as : List α} {bs : List β} {a : α}
    {b : β} (h : List.Forall₂ R as bs) : List.Forall₂ R (as ++ [a]) (bs ++ [b]) ↔ R a b := by
  constructor
  · intro hab
    have hlast := List.forall₂_drop_append _ _ _ hab
    rw [← h.length_eq, List.drop_left' rfl] at hlast
    cases hlast with
    | cons hr _ => exact hr
  · intro hab
    exact List.rel_append h (.cons hab .nil)

theorem textsRight_next (hc : Current s) (hs : TextsRight s) (he : Enabled s e) :
    TextsRight (next s e) ↔ OneStage s e := by
  by_cases hadd : e = .addJob
  · subst hadd
    obtain ⟨line, background, pgid, hp⟩ := PipelineShell.enabled_addJob he.1
    obtain ⟨hline, hread⟩ := hc line (by rw [hp]; rfl)
    have hjobs : (next s .addJob).shell.jobs =
        JobTable.add s.shell.jobs pgid line .running := by
      simp only [next, PipelineShell.next, hp]
      rfl
    by_cases hroom : s.shell.jobs.length < maxJobs
    · have hentered : (next s .addJob).entered = s.entered ++ [s.current] := if_pos hroom
      have htext : (CharArray.print line : CharArray PipelineShell.cmdSize).text = line := by
        have hcut := StringTokens.cutText_initial PipelineParser.isBar (strip s.current)
        obtain ⟨amp, heq, -⟩ := strip_append s.current
        have hsub : line <+: s.current := by
          rw [hline, PipelineParser.cutLine_eq]
          exact hcut.trans ⟨amp, heq.symm⟩
        exact print_text (fun hz => hread.1 (hsub.subset hz))
          (Nat.lt_of_le_of_lt hsub.length_le hread.2)
      rw [TextsRight, hjobs, hentered, JobTable.add, if_pos hroom, texts, List.map_append,
        List.map_singleton, htext]
      rw [← texts, forall₂_concat hs, hline, asTyped_cutLine_iff]
      exact ⟨fun h _ => h, fun h => h hroom⟩
    · have hentered : (next s .addJob).entered = s.entered := if_neg hroom
      rw [TextsRight, hjobs, hentered, JobTable.add, if_neg hroom]
      exact iff_of_true hs fun h => absurd h hroom
  · have hentered : (next s e).entered = s.entered := by
      cases e with
      | addJob => exact absurd rfl hadd
      | _ => rfl
    have hone : OneStage s e := by
      cases e with
      | addJob => exact absurd rfl hadd
      | _ => trivial
    have htexts : texts (next s e).shell.jobs = texts s.shell.jobs := next_texts s.shell hadd
    rw [TextsRight, hentered, htexts]
    exact iff_of_true hs hone

theorem texts_right_iff {es : List PipelineShell.Event} (h : (machine shellPgid).Valid es) :
    (machine shellPgid).Along (fun s e => TextsRight (next s e)) es ↔
      (machine shellPgid).Along OneStage es := by
  have hstart : TextsRight (machine shellPgid).initial := .nil
  refine (Machine.along_iff_reached hstart (fun es e hv he hp => ?_) h).symm
  have hcurrent : Current ((machine shellPgid).run es) :=
    Machine.invariant (fun _ hl => nomatch hl) (fun s e => current_next) hv
  exact textsRight_next hcurrent hp he

end Pipeline

/-- In both shells the texts are as typed for as long as every command line that is entered is one
word with its `&`, or one stage. -/
theorem command_texts_iff (shellPgid : ℕ) (es : List Background.Event)
    (fs : List PipelineShell.Event) (h : Background.machine.Valid es)
    (h' : (Pipeline.machine shellPgid).Valid fs) :
    (Background.machine.Along (fun s e => Background.TextsRight (Background.next s e)) es ↔
      Background.machine.Along Background.OneWord es) ∧
    ((Pipeline.machine shellPgid).Along (fun s e => Pipeline.TextsRight (Pipeline.next s e)) fs ↔
      (Pipeline.machine shellPgid).Along Pipeline.OneStage fs) :=
  ⟨Background.texts_right_iff h, Pipeline.texts_right_iff h'⟩

/-- A run of lab 12 up to the entry, with the numbers of the stages. -/
def entering (line : List Byte) (pids : List ℕ) : List PipelineShell.Event :=
  .launch line :: pids.flatMap (fun pid => [.fork pid, .parentSetpgid]) ++ [.addJob]

theorem one_word_texts :
    Background.machine.Along (fun s e => Background.TextsRight (Background.next s e))
      [.launch 200 (ascii "top &\n")] ∧
    (Pipeline.machine 100).Along (fun s e => Pipeline.TextsRight (Pipeline.next s e))
      (entering (ascii "sleep 5 &") [200]) := by
  obtain ⟨hjobs, hpipe⟩ := command_texts_iff 100 [.launch 200 (ascii "top &\n")]
    (entering (ascii "sleep 5 &") [200]) (by decide) (by decide)
  exact ⟨hjobs.mpr (by decide), hpipe.mpr (by decide)⟩

/-- The README's job is entered as `sleep`, and of a pipeline only the first command is. -/
theorem texts_are_cut :
    (Background.machine.Valid [.launch 200 (ascii "sleep 5 &\n")] ∧
      ¬ Background.machine.Along (fun s e => Background.TextsRight (Background.next s e))
        [.launch 200 (ascii "sleep 5 &\n")]) ∧
    (Pipeline.machine 100).Valid (entering (ascii "a|b") [200, 201]) ∧
      ¬ (Pipeline.machine 100).Along (fun s e => Pipeline.TextsRight (Pipeline.next s e))
        (entering (ascii "a|b") [200, 201]) := by
  have hjobs : Background.machine.Valid [.launch 200 (ascii "sleep 5 &\n")] := by decide
  have hpipe : (Pipeline.machine 100).Valid (entering (ascii "a|b") [200, 201]) := by decide
  refine ⟨⟨hjobs, fun h => ?_⟩, hpipe, fun h => ?_⟩
  · exact absurd ((Background.texts_right_iff hjobs).mp h) (by decide)
  · exact absurd ((Pipeline.texts_right_iff hpipe).mp h) (by decide)

end CommandTexts
