import LinuxLabs.Execution
import LinuxLabs.JobTable

/-! # The pipeline shell (lab 12)
`execute_pipeline` forks the stages one by one while those already forked run, change
groups and end, and while the SIGCHLD handler takes their statuses. Pipelines are numbered
by `launches`; `add_job` runs once for each, so entry `k` of the table is pipeline `k`'s. -/
namespace PipelineShell

open Execution CString ChildProcess
open JobTable (JobState maxJobs setState recorded isBuiltin isBackground)

def maxCmds : ℕ := 8
abbrev cmdSize : ℕ := 256

abbrev Job := JobTable.Job ℤ cmdSize

def bar : Byte := 124
def space : Byte := 32

/-- `parse_pipeline`: `strtok` on bars, then the spaces on the left go. -/
def parsePipeline (line : List Byte) : List (List Byte) :=
  (((line.splitOnP (· = bar)).filter (· ≠ [])).take maxCmds).map fun token =>
    token.dropWhile (· = space)

/-- The string `strtok` leaves in `cmdline`, which is cut at the first bar after a token. -/
def cutLine (line : List Byte) : List Byte :=
  line.takeWhile (· = bar) ++ (line.dropWhile (· = bar)).takeWhile (· ≠ bar)

/-- Where a child is between `fork` and its command: `grouped` after its own `setpgid`. -/
inductive StagePhase where
  | forked
  | grouped
  | executing
  deriving DecidableEq

/-- A forked stage; `forkPgid` is the value of `pgid` it was forked with, `launch` its pipeline. -/
structure Stage where
  child : Child
  pgid : ℕ
  forkPgid : ℕ
  phase : StagePhase
  command : List Byte
  launch : ℕ
  deriving DecidableEq

/-- `pgid ? pgid : getpid()` in the child. -/
def Stage.group (p : Stage) : ℕ := if p.forkPgid ≠ 0 then p.forkPgid else p.child.pid

/-- `forking` is the head of the loop with the commands still to start, `grouping` the point
between `fork` and the parent's `setpgid`; both carry the parent's `pgid`. -/
inductive Phase where
  | prompt
  | forking (line : List Byte) (background : Bool) (commands : List (List Byte)) (pgid : ℕ)
  | grouping (line : List Byte) (background : Bool) (commands : List (List Byte)) (pid pgid : ℕ)
  | waiting (pgid : ℤ)
  | continuing (idx : ℕ) (pgid : ℤ) (foreground : Bool)
  | assigning (idx : ℕ) (pgid : ℤ) (foreground : Bool)
  deriving DecidableEq

structure State where
  shellPgid : ℕ
  stages : List Stage
  jobs : List Job
  launches : ℕ
  phase : Phase

def initial (shellPgid : ℕ) : State := ⟨shellPgid, [], [], 0, .prompt⟩

def findJob (jobs : List Job) (pgid : ℤ) : Option ℕ := JobTable.find jobs pgid

def addJob (jobs : List Job) (pgid : ℤ) (cmd : List Byte) (st : JobState) : List Job :=
  JobTable.add jobs pgid cmd st

/-- `getpgid` of a child's number. -/
def getpgid (stages : List Stage) (pid : ℕ) : ℤ :=
  match stages.find? fun p => p.child.pid = pid ∧ p.child.life ≠ .reaped with
  | some p => p.pgid
  | none => -1

/-- One round of `sigchld_handler` after `waitpid` returned `pid`: the children are those
that are left. -/
def sigchldHandler (stages : List Stage) (jobs : List Job) (pid : ℕ) (st : Status) : List Job :=
  JobTable.record jobs (getpgid stages pid) st

def GroupExists (s : State) (g : ℕ) : Prop :=
  g = s.shellPgid ∨ ∃ p ∈ s.stages, p.child.life ≠ .reaped ∧ p.pgid = g

instance (s : State) (g : ℕ) : Decidable (GroupExists s g) := inferInstanceAs (Decidable (_ ∨ _))

/-- `setpgid` on a process that may be moved: it fails for a group that is not there. -/
def setpgid (s : State) (p : Stage) (g : ℕ) : Stage :=
  if g = p.child.pid ∨ GroupExists s g then { p with pgid := g } else p

/-- The processes that `waitpid` and `kill` mean by `-pgid`. -/
def InGroup (s : State) (pgid : ℤ) (p : Stage) : Prop :=
  p.pgid = if pgid = 0 then (s.shellPgid : ℤ) else pgid

instance (s : State) (pgid : ℤ) (p : Stage) : Decidable (InGroup s pgid p) :=
  inferInstanceAs (Decidable (_ = _))

/-- `handle j` and `wait j` take the pending status of stage `j`, in the handler and in the
foreground `waitpid`; `noChild` is that `waitpid` failing. -/
inductive Event where
  | launch (line : List Byte)
  | fork (pid : ℕ)
  | forkFailed
  | parentSetpgid
  | addJob
  | childSetpgid (j : ℕ)
  | exec (j : ℕ)
  | change (j : ℕ) (st : Status)
  | handle (j : ℕ)
  | wait (j : ℕ)
  | noChild
  | command (idx : ℕ) (foreground : Bool)
  | kill
  | assign
  deriving DecidableEq

/-- The kernel numbers a child unlike every process and every group there is. -/
def FreshPid (s : State) (pid : ℕ) : Prop :=
  0 < pid ∧ pid ≠ s.shellPgid ∧
    ∀ p ∈ s.stages, p.child.life ≠ .reaped → p.child.pid ≠ pid ∧ p.pgid ≠ pid

instance (s : State) (pid : ℕ) : Decidable (FreshPid s pid) := inferInstanceAs (Decidable (_ ∧ _))

def Enabled (s : State) : Event → Prop
  | .launch line => s.phase = .prompt ∧ line ≠ [] ∧ isBuiltin line = false
  | .fork pid => match s.phase with
    | .forking _ _ (_ :: _) _ => FreshPid s pid
    | _ => False
  | .forkFailed => match s.phase with
    | .forking _ _ (_ :: _) _ => True
    | _ => False
  | .parentSetpgid => match s.phase with
    | .grouping _ _ _ _ _ => True
    | _ => False
  | .addJob => match s.phase with
    | .forking _ _ [] _ => True
    | _ => False
  | .childSetpgid j => ∃ p ∈ s.stages[j]?, p.phase = .forked ∧ p.child.life = .running
  | .exec j => ∃ p ∈ s.stages[j]?, p.phase = .grouped ∧ p.child.life = .running
  | .change j st => ∃ p ∈ s.stages[j]?, p.child.CanReport st
  | .handle j => ∃ p ∈ s.stages[j]?, p.child.pending ≠ none
  | .wait j => match s.phase with
    | .waiting pgid => ∃ p ∈ s.stages[j]?, InGroup s pgid p ∧
      (p.child.pending = some .stopped ∨ p.child.pending = some .exited)
    | _ => False
  | .noChild => match s.phase with
    | .waiting pgid => ∀ p ∈ s.stages, p.child.life ≠ .reaped → ¬ InGroup s pgid p
    | _ => False
  | .command idx _ => s.phase = .prompt ∧ idx < s.jobs.length
  | .kill => match s.phase with
    | .continuing _ _ _ => True
    | _ => False
  | .assign => match s.phase with
    | .assigning _ _ _ => True
    | _ => False

def Stage.consume (p : Stage) : Stage := { p with child := p.child.consume }

def next (s : State) : Event → State
  | .launch line =>
    if isBackground line then
      { s with phase := .forking (cutLine line.dropLast) true (parsePipeline line.dropLast) 0 }
    else { s with phase := .forking (cutLine line) false (parsePipeline line) 0 }
  | .fork pid =>
    match s.phase with
    | .forking line background (command :: commands) pgid =>
      { s with
        stages := s.stages ++ [⟨Child.start pid, s.shellPgid, pgid, .forked, command, s.launches⟩]
        phase := .grouping line background commands pid (if pgid = 0 then pid else pgid) }
    | _ => s
  | .forkFailed =>
    match s.phase with
    | .forking line background (_ :: commands) pgid =>
      { s with phase := .forking line background commands pgid }
    | _ => s
  | .parentSetpgid =>
    match s.phase with
    | .grouping line background commands pid pgid =>
      { s with
        stages := s.stages.map fun p =>
          if p.child.pid = pid ∧ p.child.life ≠ .reaped ∧ p.phase ≠ .executing then setpgid s p pgid
          else p
        phase := .forking line background commands pgid }
    | _ => s
  | .addJob =>
    match s.phase with
    | .forking line background [] pgid =>
      { s with
        jobs := addJob s.jobs pgid line .running
        launches := s.launches + 1
        phase := if background then .prompt else .waiting pgid }
    | _ => s
  | .childSetpgid j =>
    { s with stages := s.stages.modify j fun p => { setpgid s p p.group with phase := .grouped } }
  | .exec j => { s with stages := s.stages.modify j fun p => { p with phase := .executing } }
  | .change j st =>
    { s with stages := s.stages.modify j fun p => { p with child := p.child.report st } }
  | .handle j =>
    match s.stages[j]? with
    | none => s
    | some p =>
      match p.child.pending with
      | none => s
      | some st =>
        { s with
          stages := s.stages.modify j Stage.consume
          jobs := sigchldHandler (s.stages.modify j Stage.consume) s.jobs p.child.pid st }
  | .wait j => { s with stages := s.stages.modify j Stage.consume, phase := .prompt }
  | .noChild => { s with phase := .prompt }
  | .command idx foreground =>
    match s.jobs[idx]? with
    | none => s
    | some job =>
      if job.state = .done then s else { s with phase := .continuing idx job.key foreground }
  | .kill =>
    match s.phase with
    | .continuing idx pgid foreground =>
      { s with
        stages := s.stages.map fun p =>
          if InGroup s pgid p then { p with child := p.child.resume } else p
        phase := .assigning idx pgid foreground }
    | _ => s
  | .assign =>
    match s.phase with
    | .assigning idx pgid foreground =>
      { s with
        jobs := setState s.jobs idx .running
        phase := if foreground then .waiting pgid else .prompt }
    | _ => s

def machine (shellPgid : ℕ) : Machine State Event := ⟨initial shellPgid, Enabled, next⟩

instance (s : State) (e : Event) : Decidable (Enabled s e) := by
  cases e <;> simp only [Enabled]
  case fork | forkFailed | parentSetpgid | addJob | wait | noChild | kill | assign =>
    split <;> infer_instance
  all_goals infer_instance

instance (shellPgid : ℕ) (s : State) (e : Event) : Decidable ((machine shellPgid).Enabled s e) :=
  inferInstanceAs (Decidable (Enabled s e))

/-! ## Where an event of the main program can happen -/

section

variable {s : State}

theorem enabled_fork {pid : ℕ} (he : Enabled s (.fork pid)) :
    ∃ line background command commands pgid,
      s.phase = .forking line background (command :: commands) pgid ∧ FreshPid s pid := by
  simp only [Enabled] at he
  split at he
  · next hp => exact ⟨_, _, _, _, _, hp, he⟩
  · exact he.elim

theorem enabled_forkFailed (he : Enabled s .forkFailed) :
    ∃ line background command commands pgid,
      s.phase = .forking line background (command :: commands) pgid := by
  simp only [Enabled] at he
  split at he
  · next hp => exact ⟨_, _, _, _, _, hp⟩
  · exact he.elim

theorem enabled_parentSetpgid (he : Enabled s .parentSetpgid) :
    ∃ line background commands pid pgid,
      s.phase = .grouping line background commands pid pgid := by
  simp only [Enabled] at he
  split at he
  · next hp => exact ⟨_, _, _, _, _, hp⟩
  · exact he.elim

theorem enabled_addJob (he : Enabled s .addJob) :
    ∃ line background pgid, s.phase = .forking line background [] pgid := by
  simp only [Enabled] at he
  split at he
  · next hp => exact ⟨_, _, _, hp⟩
  · exact he.elim

theorem enabled_wait {j : ℕ} (he : Enabled s (.wait j)) :
    ∃ pgid, s.phase = .waiting pgid ∧ ∃ p ∈ s.stages[j]?, InGroup s pgid p ∧
      (p.child.pending = some .stopped ∨ p.child.pending = some .exited) := by
  simp only [Enabled] at he
  split at he
  · next hp => exact ⟨_, hp, he⟩
  · exact he.elim

theorem enabled_noChild (he : Enabled s .noChild) :
    ∃ pgid, s.phase = .waiting pgid ∧
      ∀ p ∈ s.stages, p.child.life ≠ .reaped → ¬ InGroup s pgid p := by
  simp only [Enabled] at he
  split at he
  · next hp => exact ⟨_, hp, he⟩
  · exact he.elim

theorem enabled_kill (he : Enabled s .kill) :
    ∃ idx pgid foreground, s.phase = .continuing idx pgid foreground := by
  simp only [Enabled] at he
  split at he
  · next hp => exact ⟨_, _, _, hp⟩
  · exact he.elim

theorem enabled_assign (he : Enabled s .assign) :
    ∃ idx pgid foreground, s.phase = .assigning idx pgid foreground := by
  simp only [Enabled] at he
  split at he
  · next hp => exact ⟨_, _, _, hp⟩
  · exact he.elim

end

/-! ## A stage keeps its number and its pipeline -/

structure Follows (p p' : Stage) : Prop where
  pid : p'.child.pid = p.child.pid
  alive : p'.child.life ≠ .reaped → p.child.life ≠ .reaped
  forkPgid : p'.forkPgid = p.forkPgid
  launch : p'.launch = p.launch

theorem Follows.refl (p : Stage) : Follows p p := ⟨rfl, id, rfl, rfl⟩

theorem Follows.group {p p' : Stage} (h : Follows p p') : p'.group = p.group := by
  rw [Stage.group, Stage.group, h.forkPgid, h.pid]

theorem follows_setpgid (s : State) (p : Stage) (g : ℕ) : Follows p (setpgid s p g) := by
  unfold setpgid
  split <;> exact ⟨rfl, id, rfl, rfl⟩

theorem follows_consume (p : Stage) : Follows p p.consume :=
  ⟨Child.consume_pid, Child.consume_not_reaped, rfl, rfl⟩

theorem follows_report (p : Stage) (st : Status) :
    Follows p { p with child := p.child.report st } :=
  ⟨Child.report_pid, fun h => Child.report_reaped.not.mp h, rfl, rfl⟩

theorem follows_modify {stages : List Stage} {f : Stage → Stage} (hf : ∀ p, Follows p (f p))
    {i j : ℕ} {p' : Stage} (h : (stages.modify i f)[j]? = some p') :
    ∃ p, stages[j]? = some p ∧ Follows p p' := by
  obtain ⟨p, hp, rfl⟩ := KeyedTable.modify_some h
  refine ⟨p, hp, ?_⟩
  split
  · exact hf p
  · exact .refl p

theorem follows_map {stages : List Stage} {f : Stage → Stage} (hf : ∀ p, Follows p (f p))
    {j : ℕ} {p' : Stage} (h : (stages.map f)[j]? = some p') :
    ∃ p, stages[j]? = some p ∧ Follows p p' := by
  rw [List.getElem?_map] at h
  obtain ⟨p, hp, rfl⟩ := Option.map_eq_some_iff.mp h
  exact ⟨p, hp, hf p⟩

/-- Every stage after a step was there before it, or has just been forked. -/
theorem next_stages {s : State} {e : Event} {j : ℕ} {p' : Stage}
    (h : (next s e).stages[j]? = some p') :
    (∃ p, s.stages[j]? = some p ∧ Follows p p') ∨
      ∃ pid line background command commands pgid, e = .fork pid ∧
        s.phase = .forking line background (command :: commands) pgid ∧ j = s.stages.length ∧
        p' = ⟨Child.start pid, s.shellPgid, pgid, .forked, command, s.launches⟩ := by
  have hsame (h : s.stages[j]? = some p') : ∃ p, s.stages[j]? = some p ∧ Follows p p' :=
    ⟨p', h, .refl p'⟩
  cases e with
  | fork pid =>
    simp only [next] at h
    split at h
    · next line background command commands pgid hp =>
      rcases KeyedTable.append_some h with h | ⟨hj, rfl⟩
      · exact Or.inl (hsame h)
      · exact Or.inr ⟨pid, line, background, command, commands, pgid, rfl, hp, hj, rfl⟩
    · exact Or.inl (hsame h)
  | launch line =>
    simp only [next] at h
    split at h <;> exact Or.inl (hsame h)
  | forkFailed | addJob | assign =>
    simp only [next] at h
    split at h <;> exact Or.inl (hsame h)
  | command idx foreground =>
    simp only [next] at h
    split at h
    · exact Or.inl (hsame h)
    · split at h <;> exact Or.inl (hsame h)
  | noChild => exact Or.inl (hsame h)
  | parentSetpgid =>
    simp only [next] at h
    split at h
    · refine Or.inl (follows_map (fun p => ?_) h)
      split
      · exact follows_setpgid s p _
      · exact .refl p
    · exact Or.inl (hsame h)
  | childSetpgid i =>
    refine Or.inl (follows_modify (fun p => ?_) h)
    have := follows_setpgid s p p.group
    exact ⟨this.pid, this.alive, this.forkPgid, this.launch⟩
  | exec i =>
    exact Or.inl (follows_modify (f := fun p => { p with phase := .executing })
      (fun p => ⟨rfl, id, rfl, rfl⟩) h)
  | change i st => exact Or.inl (follows_modify (fun p => follows_report p st) h)
  | handle i =>
    simp only [next] at h
    split at h
    · exact Or.inl (hsame h)
    · split at h
      · exact Or.inl (hsame h)
      · exact Or.inl (follows_modify follows_consume h)
  | wait i => exact Or.inl (follows_modify follows_consume h)
  | kill =>
    simp only [next] at h
    split at h
    · refine Or.inl (follows_map (fun p => ?_) h)
      split
      · exact follows_report p .continued
      · exact .refl p
    · exact Or.inl (hsame h)

theorem next_length (s : State) (e : Event) : s.stages.length ≤ (next s e).stages.length := by
  cases e with
  | launch line =>
    simp only [next]
    split <;> exact Nat.le_refl _
  | fork pid =>
    simp only [next]
    split <;> simp
  | forkFailed | addJob | assign =>
    simp only [next]
    split <;> exact Nat.le_refl _
  | parentSetpgid | kill =>
    simp only [next]
    split <;> simp
  | command idx foreground =>
    simp only [next]
    split
    · exact Nat.le_refl _
    · split <;> exact Nat.le_refl _
  | noChild => exact Nat.le_refl _
  | childSetpgid | exec | change | wait => simp [next]
  | handle i =>
    simp only [next]
    split
    · exact Nat.le_refl _
    · split <;> simp

/-- No stage is forgotten. -/
theorem next_keeps {s : State} {e : Event} {p : Stage} (h : p ∈ s.stages) :
    ∃ p' ∈ (next s e).stages, Follows p p' := by
  obtain ⟨j, hj, rfl⟩ := List.mem_iff_getElem.mp h
  have hlt : j < (next s e).stages.length := Nat.lt_of_lt_of_le hj (next_length s e)
  have hnew := List.getElem?_eq_getElem hlt
  refine ⟨_, List.mem_of_getElem? hnew, ?_⟩
  rcases next_stages hnew with ⟨p, hp, hf⟩ | ⟨_, _, _, _, _, _, _, _, hlast, _⟩
  · rw [List.getElem?_eq_getElem hj] at hp
    cases hp
    exact hf
  · omega

/-- Two stages that are not reaped have two numbers. -/
def Distinct (s : State) : Prop := ChildProcess.Distinct (s.stages.map Stage.child)

theorem step_distinct {s : State} (h : Distinct s) {e : Event} (he : Enabled s e) :
    Distinct (next s e) := by
  by_cases hfork : ∃ pid, e = .fork pid
  · obtain ⟨pid, rfl⟩ := hfork
    obtain ⟨line, background, command, commands, pgid, hp, -, -, hfresh⟩ := enabled_fork he
    simp only [Distinct, next, hp, List.map_append, List.map_singleton]
    refine ChildProcess.Distinct.fork h fun c hc hlive => ?_
    obtain ⟨p, hp, rfl⟩ := List.mem_map.mp hc
    exact (hfresh p hp hlive).1
  · refine ChildProcess.Distinct.later h fun j c hc => ?_
    rw [List.getElem?_map] at hc
    obtain ⟨p', hp', rfl⟩ := Option.map_eq_some_iff.mp hc
    rcases next_stages hp' with ⟨p, hp, hf⟩ | ⟨pid, _, _, _, _, _, he, _⟩
    · exact ⟨p.child, by rw [List.getElem?_map, hp]; rfl, hf.pid, hf.alive⟩
    · exact absurd ⟨pid, he⟩ hfork

end PipelineShell
