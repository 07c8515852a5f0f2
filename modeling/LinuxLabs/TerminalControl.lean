import LinuxLabs.PipelineShell

/-! # Who owns the terminal (labs 10, 11 and 12)
The three shells call `tcsetpgrp` alike: at their start, around the wait for a foreground
job, and in every foreground child between `setpgid` and its command. None of them ignores
or blocks SIGTTOU, and neither do their children. -/
namespace TerminalControl

open Execution CString ChildProcess
open JobTable (JobState setState isBackground)

inductive Lab where
  | miniShell
  | jobControl
  | pipelines
  deriving DecidableEq

def Lab.cmdSize : Lab → ℕ
  | .miniShell | .jobControl => 128
  | .pipelines => PipelineShell.cmdSize

instance (lab : Lab) : NeZero lab.cmdSize := ⟨by cases lab <;> decide⟩

def Lab.isBuiltin (lab : Lab) (line : List Byte) : Bool :=
  match lab with
  | .miniShell => line = ascii "exit" ∨ line = ascii "jobs"
  | .jobControl | .pipelines => JobTable.isBuiltin line

/-- How many children a line is run by. -/
def Lab.commands (lab : Lab) (line : List Byte) : ℕ :=
  match lab with
  | .miniShell | .jobControl => 1
  | .pipelines => (PipelineShell.parsePipeline line).length

/-- The text the job is recorded with. -/
def Lab.cmdline (lab : Lab) (line : List Byte) : List Byte :=
  match lab with
  | .miniShell | .jobControl => line
  | .pipelines => PipelineShell.cutLine line

/-- Where a process is: before its `setpgid`, before its `tcsetpgrp`, before `execlp`. -/
inductive Stage where
  | joining
  | taking
  | ready
  | executing
  deriving DecidableEq

/-- `group` is what the child asks `setpgid` for. The processes that the commands fork are
here too, as they keep a group alive. -/
structure Process where
  child : Child
  pgid : ℕ
  group : ℕ
  foreground : Bool
  stage : Stage
  ofShell : Bool
  deriving DecidableEq

/-- `given` says whether the `tcsetpgrp` before the wait has succeeded; for `bg` there is none. -/
inductive Phase where
  | starting
  | prompt
  | forking (cmd : List Byte) (background : Bool) (left pgid : ℕ)
  | grouping (cmd : List Byte) (background : Bool) (left pid pgid : ℕ)
  | handing (pgid : ℕ) (fg : Option ℕ)
  | continuing (idx pgid : ℕ) (given : Option Bool)
  | assigning (idx pgid : ℕ) (given : Option Bool)
  | waiting (pgid : ℕ) (given : Bool)
  | restoring (given : Bool)
  | stopped
  deriving DecidableEq

structure State (lab : Lab) where
  shell : ℕ
  foreground : ℕ
  processes : List Process
  jobs : List (JobTable.Job ℕ lab.cmdSize)
  phase : Phase

variable {lab : Lab}

/-- The terminal's foreground group is the one the shell was started by. -/
def initial (shell foreground : ℕ) : State lab := ⟨shell, foreground, [], [], .starting⟩

def GroupExists (s : State lab) (g : ℕ) : Prop :=
  g = s.shell ∨ ∃ p ∈ s.processes, p.child.life ≠ .reaped ∧ p.pgid = g

instance (s : State lab) (g : ℕ) : Decidable (GroupExists s g) :=
  inferInstanceAs (Decidable (_ ∨ _))

/-- The processes that `kill` means by `-g`. -/
def InGroup (s : State lab) (g : ℕ) (p : Process) : Prop := p.pgid = if g = 0 then s.shell else g

/-- The children that the foreground `waitpid` is about: `pid` or `-pgid`. -/
def Awaited (s : State lab) (g : ℕ) (p : Process) : Prop :=
  p.ofShell ∧ if lab = .pipelines then InGroup s g p else p.child.pid = g

instance (s : State lab) (g : ℕ) (p : Process) : Decidable (InGroup s g p) :=
  inferInstanceAs (Decidable (_ = _))

instance (s : State lab) (g : ℕ) (p : Process) : Decidable (Awaited s g p) := by
  unfold Awaited
  infer_instance

/-- `setpgid` on a process that may be moved: it fails for a group that is not there. -/
def setpgid (s : State lab) (p : Process) (g : ℕ) : Process :=
  if g = p.child.pid ∨ GroupExists s g then { p with pgid := g } else p

def Process.report (p : Process) (st : Status) : Process := { p with child := p.child.report st }

def Process.consume (p : Process) : Process := { p with child := p.child.consume }

/-- SIGTTOU to the group `g`. -/
def sigttou (s : State lab) (g : ℕ) : State lab :=
  { s with
    processes := s.processes.map fun p => if p.pgid = g then p.report .stopped else p
    phase := if g = s.shell then .stopped else s.phase }

/-- `tcsetpgrp(STDIN_FILENO, g)` from the foreground group. -/
def tcsetpgrp (s : State lab) (g : ℕ) : State lab :=
  if GroupExists s g then { s with foreground := g } else s

/-- Lab 10 has no `fg`, so nothing about the terminal is read from its table. -/
def addJob (jobs : List (JobTable.Job ℕ lab.cmdSize)) (pgid : ℕ) (cmd : List Byte) :
    List (JobTable.Job ℕ lab.cmdSize) :=
  match lab with
  | .miniShell => jobs
  | .jobControl | .pipelines => JobTable.add jobs pgid cmd .running

/-- One round of `sigchld_handler`; in lab 12 `getpgid` fails for a child that was reaped. -/
def sigchldHandler (jobs : List (JobTable.Job ℕ lab.cmdSize)) (p : Process) (st : Status) :
    List (JobTable.Job ℕ lab.cmdSize) :=
  match lab with
  | .miniShell => jobs
  | .jobControl => JobTable.record jobs p.child.pid st
  | .pipelines => if st = .exited then jobs else JobTable.record jobs p.pgid st

/-- `handle j` and `wait j` take the pending status of a child of the shell, in the handler and
in the foreground `waitpid`; `noChild` is that `waitpid` failing. `spawn` and `collect` are
the forks and waits of the commands. -/
inductive Event where
  | start
  | launch (line : List Byte)
  | fork (pid : ℕ)
  | forkFailed
  | parentSetpgid
  | addJob
  | command (idx : ℕ) (foreground : Bool)
  | handOver
  | kill
  | assign
  | wait (j : ℕ)
  | noChild
  | restore
  | handle (j : ℕ)
  | childSetpgid (j : ℕ)
  | childTcsetpgrp (j : ℕ)
  | exec (j : ℕ)
  | change (j : ℕ) (st : Status)
  | spawn (j pid : ℕ)
  | collect (j : ℕ)
  deriving DecidableEq

/-- The kernel numbers a process unlike every process and every group there is. -/
def FreshPid (s : State lab) (pid : ℕ) : Prop :=
  0 < pid ∧ pid ≠ s.shell ∧
    ∀ p ∈ s.processes, p.child.life ≠ .reaped → p.child.pid ≠ pid ∧ p.pgid ≠ pid

instance (s : State lab) (pid : ℕ) : Decidable (FreshPid s pid) :=
  inferInstanceAs (Decidable (_ ∧ _))

/-- The process `j` is running, at `stage`. -/
def At (s : State lab) (j : ℕ) (stage : Stage) : Prop :=
  ∃ p ∈ s.processes[j]?, p.stage = stage ∧ p.child.life = .running

instance (s : State lab) (j : ℕ) (stage : Stage) : Decidable (At s j stage) := by
  unfold At
  infer_instance

def Enabled (s : State lab) : Event → Prop
  | .start => s.phase = .starting
  | .launch line => s.phase = .prompt ∧ line ≠ [] ∧ lab.isBuiltin line = false
  | .fork pid => match s.phase with
    | .forking _ _ (_ + 1) _ => FreshPid s pid
    | _ => False
  | .forkFailed => match s.phase with
    | .forking _ _ (_ + 1) _ => True
    | _ => False
  | .parentSetpgid => match s.phase with
    | .grouping _ _ _ _ _ => True
    | _ => False
  | .addJob => match s.phase with
    | .forking _ _ 0 _ => True
    | _ => False
  | .command idx _ => s.phase = .prompt ∧ lab ≠ .miniShell ∧ idx < s.jobs.length
  | .handOver => match s.phase with
    | .handing _ _ => True
    | _ => False
  | .kill => match s.phase with
    | .continuing _ _ _ => True
    | _ => False
  | .assign => match s.phase with
    | .assigning _ _ _ => True
    | _ => False
  | .wait j => match s.phase with
    | .waiting pgid _ => ∃ p ∈ s.processes[j]?, Awaited s pgid p ∧
      (p.child.pending = some .stopped ∨ p.child.pending = some .exited)
    | _ => False
  | .noChild => match s.phase with
    | .waiting pgid _ => ∀ p ∈ s.processes, p.child.life ≠ .reaped → ¬ Awaited s pgid p
    | _ => False
  | .restore => match s.phase with
    | .restoring _ => True
    | _ => False
  | .handle j => s.phase ≠ .starting ∧ s.phase ≠ .stopped ∧ ∃ p ∈ s.processes[j]?, p.ofShell ∧
      p.child.pending ≠ none ∧ (lab = .miniShell → p.child.pending = some .exited)
  | .childSetpgid j => At s j .joining
  | .childTcsetpgrp j => At s j .taking
  | .exec j => At s j .ready
  | .change j st => ∃ p ∈ s.processes[j]?, p.child.CanReport st
  | .spawn j pid => At s j .executing ∧ FreshPid s pid
  | .collect j => ∃ p ∈ s.processes[j]?, p.ofShell = false ∧ p.child.pending = some .exited

/-- The child goes on to `tcsetpgrp` only in the foreground. -/
def Process.joined (p : Process) : Process :=
  { p with stage := if p.foreground then .taking else .ready }

def next (s : State lab) : Event → State lab
  | .start => if s.foreground = s.shell then { s with phase := .prompt } else sigttou s s.shell
  | .launch line =>
    if isBackground line then
      { s with phase := .forking (lab.cmdline line.dropLast) true (lab.commands line.dropLast) 0 }
    else { s with phase := .forking (lab.cmdline line) false (lab.commands line) 0 }
  | .fork pid =>
    match s.phase with
    | .forking cmd background (left + 1) pgid =>
      { s with
        processes := s.processes ++ [⟨Child.start pid, s.shell, if pgid ≠ 0 then pgid else pid,
          !background, .joining, true⟩]
        phase := .grouping cmd background left pid (if pgid = 0 then pid else pgid) }
    | _ => s
  | .forkFailed =>
    match s.phase with
    | .forking cmd background (left + 1) pgid =>
      { s with
        phase := if lab = .pipelines then .forking cmd background left pgid else .prompt }
    | _ => s
  | .parentSetpgid =>
    match s.phase with
    | .grouping cmd background left pid pgid =>
      { s with
        processes := s.processes.map fun p =>
          if p.child.pid = pid ∧ p.ofShell ∧ p.child.life ≠ .reaped ∧ p.stage ≠ .executing then
            setpgid s p pgid
          else p
        phase := .forking cmd background left pgid }
    | _ => s
  | .addJob =>
    match s.phase with
    | .forking cmd background 0 pgid =>
      { s with
        jobs := addJob s.jobs pgid cmd
        phase := if background then .prompt else .handing pgid none }
    | _ => s
  | .command idx foreground =>
    match s.jobs[idx]? with
    | none => s
    | some job =>
      if job.state = .done then s
      else if foreground then { s with phase := .handing job.key (some idx) }
      else { s with phase := .continuing idx job.key none }
  | .handOver =>
    match s.phase with
    | .handing pgid fg =>
      if s.foreground = s.shell then
        let given := decide (GroupExists s pgid)
        { tcsetpgrp s pgid with
          phase := match fg with
            | none => .waiting pgid given
            | some idx => .continuing idx pgid (some given) }
      else sigttou s s.shell
    | _ => s
  | .kill =>
    match s.phase with
    | .continuing idx pgid given =>
      { s with
        processes := s.processes.map fun p =>
          if InGroup s pgid p then p.report .continued else p
        phase := .assigning idx pgid given }
    | _ => s
  | .assign =>
    match s.phase with
    | .assigning idx pgid given =>
      { s with
        jobs := setState s.jobs idx .running
        phase := match given with
          | none => .prompt
          | some given => .waiting pgid given }
    | _ => s
  | .wait j =>
    match s.phase with
    | .waiting _ given =>
      { s with processes := s.processes.modify j Process.consume, phase := .restoring given }
    | _ => s
  | .noChild =>
    match s.phase with
    | .waiting _ given => { s with phase := .restoring given }
    | _ => s
  | .restore =>
    if s.foreground = s.shell then { tcsetpgrp s s.shell with phase := .prompt }
    else sigttou s s.shell
  | .handle j =>
    match s.processes[j]? with
    | none => s
    | some p =>
      match p.child.pending with
      | none => s
      | some st =>
        { s with
          processes := s.processes.modify j Process.consume
          jobs := sigchldHandler s.jobs p st }
  | .childSetpgid j =>
    { s with processes := s.processes.modify j fun p => (setpgid s p p.group).joined }
  | .childTcsetpgrp j =>
    match s.processes[j]? with
    | none => s
    | some p =>
      if s.foreground = p.pgid then
        { tcsetpgrp s p.child.pid with
          processes := s.processes.modify j fun p => { p with stage := .ready } }
      else sigttou s p.pgid
  | .exec j =>
    { s with processes := s.processes.modify j fun p => { p with stage := .executing } }
  | .change j st => { s with processes := s.processes.modify j fun p => p.report st }
  | .spawn j pid =>
    match s.processes[j]? with
    | none => s
    | some p =>
      { s with
        processes := s.processes ++ [⟨Child.start pid, p.pgid, p.pgid, false, .executing, false⟩] }
  | .collect j => { s with processes := s.processes.modify j Process.consume }

def machine (lab : Lab) (shell foreground : ℕ) : Machine (State lab) Event :=
  ⟨initial shell foreground, Enabled, next⟩

instance (s : State lab) (e : Event) : Decidable (Enabled s e) := by
  cases e <;> simp only [Enabled]
  case fork | forkFailed | parentSetpgid | addJob | handOver | kill | assign | wait | noChild |
    restore => split <;> infer_instance
  all_goals infer_instance

instance (lab : Lab) (shell foreground : ℕ) (s : State lab) (e : Event) :
    Decidable ((machine lab shell foreground).Enabled s e) :=
  inferInstanceAs (Decidable (Enabled s e))

/-- The steps in which the shell itself calls `tcsetpgrp`. -/
def Calls : Event → Prop
  | .start | .handOver | .restore => True
  | _ => False

/-- The shell calls `tcsetpgrp` from the foreground only, and has the terminal at its prompt. -/
structure KeepsTerminal (s : State lab) (e : Event) : Prop where
  call : Calls e → s.foreground = s.shell
  prompt : (next s e).phase = .prompt → (next s e).foreground = s.shell

instance (e : Event) : Decidable (Calls e) := by
  cases e <;> simp only [Calls] <;> infer_instance

instance (s : State lab) (e : Event) : Decidable (KeepsTerminal s e) :=
  decidable_of_iff ((Calls e → s.foreground = s.shell) ∧
    ((next s e).phase = .prompt → (next s e).foreground = s.shell))
    ⟨fun h => ⟨h.1, h.2⟩, fun h => ⟨h.call, h.prompt⟩⟩

/-- The shell is started in the foreground, and no wait for a job that was given the terminal
comes to its end. -/
def NoReturn (s : State lab) : Event → Prop
  | .start => s.foreground = s.shell
  | .restore => s.phase = .restoring false
  | _ => True

instance (s : State lab) (e : Event) : Decidable (NoReturn s e) := by
  cases e <;> simp only [NoReturn] <;> infer_instance

variable {s : State lab} {e : Event}

theorem enabled_fork {pid : ℕ} (he : Enabled s (.fork pid)) :
    ∃ cmd background left pgid,
      s.phase = .forking cmd background (left + 1) pgid ∧ FreshPid s pid := by
  simp only [Enabled] at he
  split at he
  · next hp => exact ⟨_, _, _, _, hp, he⟩
  · exact he.elim

/-! ## A process keeps its number -/

def Process.Alive (p : Process) : Prop := p.child.life ≠ .reaped

/-- What a step that forks nobody makes of a process: it may at most have got its group. -/
structure Follows (s : State lab) (p p' : Process) : Prop where
  pid : p'.child.pid = p.child.pid
  alive : p'.Alive → p.Alive
  group : p'.group = p.group
  ofShell : p'.ofShell = p.ofShell
  early : p'.stage = .joining ∨ p'.stage = .taking → p.stage = .joining ∨ p.stage = .taking
  joined : p'.pgid = p.pgid ∨
    p'.pgid = p.group ∧ (p.group = p.child.pid ∨ GroupExists s p.group)
  leads : p'.stage = .taking → p.group = p.child.pid →
    p.stage = .taking ∧ p'.pgid = p.pgid ∨ p'.pgid = p.child.pid

theorem Follows.refl (s : State lab) (p : Process) : Follows s p p :=
  ⟨rfl, id, rfl, rfl, id, Or.inl rfl, fun h _ => Or.inl ⟨h, rfl⟩⟩

theorem follows_child (s : State lab) (p : Process) {c : Child} (hpid : c.pid = p.child.pid)
    (halive : c.life ≠ .reaped → p.child.life ≠ .reaped) : Follows s p { p with child := c } :=
  ⟨hpid, halive, rfl, rfl, id, Or.inl rfl, fun h _ => Or.inl ⟨h, rfl⟩⟩

theorem follows_report (s : State lab) (p : Process) (st : Status) : Follows s p (p.report st) :=
  follows_child s p Child.report_pid fun h => Child.report_reaped.not.mp h

theorem follows_consume (s : State lab) (p : Process) : Follows s p p.consume :=
  follows_child s p Child.consume_pid Child.consume_not_reaped

theorem follows_late (s : State lab) (p : Process) {stage : Stage} (hj : stage ≠ .joining)
    (ht : stage ≠ .taking) : Follows s p { p with stage := stage } :=
  ⟨rfl, id, rfl, rfl, fun h => h.elim (absurd · hj) (absurd · ht), Or.inl rfl,
    fun h => absurd h ht⟩

theorem follows_setpgid (s : State lab) (p : Process) : Follows s p (setpgid s p p.group) := by
  unfold setpgid
  split
  · next h => exact ⟨rfl, id, rfl, rfl, id, Or.inr ⟨rfl, h⟩, fun _ hg => Or.inr hg⟩
  · exact .refl s p

/-- Its own `setpgid` makes a leader of a process that asks for its own number. -/
theorem follows_joined (s : State lab) {p : Process} (hp : p.stage = .joining) :
    Follows s p (setpgid s p p.group).joined := by
  have hf := follows_setpgid s p
  refine ⟨hf.pid, hf.alive, hf.group, hf.ofShell, fun _ => Or.inl hp, hf.joined, fun _ hg => ?_⟩
  right
  simp only [Process.joined, setpgid, hg, true_or, if_true]

/-! ## The numbers of processes and groups -/

/-- A child that is to join another's group leads none, and a leader has its group before it
calls `tcsetpgrp`. -/
structure Numbered (s : State lab) : Prop where
  distinct : Distinct (s.processes.map Process.child)
  pids : ∀ p ∈ s.processes, p.child.pid ≠ s.shell
  unled : ∀ p ∈ s.processes, p.Alive → p.stage = .joining ∨ p.stage = .taking →
    p.group ≠ p.child.pid → ∀ q ∈ s.processes, q.Alive → q.pgid ≠ p.child.pid
  leads : ∀ p ∈ s.processes, p.Alive → p.stage = .taking → p.group = p.child.pid →
    p.pgid = p.child.pid

theorem Numbered.eq (h : Numbered s) {p q : Process} (hp : p ∈ s.processes)
    (hq : q ∈ s.processes) (hpa : p.Alive) (hqa : q.Alive) (hpid : p.child.pid = q.child.pid) :
    p = q := by
  obtain ⟨i, hi, rfl⟩ := List.mem_iff_getElem.mp hp
  obtain ⟨j, hj, rfl⟩ := List.mem_iff_getElem.mp hq
  have hij := h.distinct i j _ _ (by rw [List.getElem?_map, List.getElem?_eq_getElem hi]; rfl)
    (by rw [List.getElem?_map, List.getElem?_eq_getElem hj]; rfl) hpa hqa hpid
  subst hij
  rfl

/-- No group has the number of a process that is to join another's. -/
theorem Numbered.no_group (h : Numbered s) {p : Process} (hp : p ∈ s.processes) (ha : p.Alive)
    (hstage : p.stage = .joining ∨ p.stage = .taking) (hg : p.group ≠ p.child.pid) :
    ¬ GroupExists s p.child.pid := by
  rintro (hshell | ⟨q, hq, hqa, hpgid⟩)
  · exact h.pids p hp hshell
  · exact h.unled p hp ha hstage hg q hq hqa hpgid

theorem Numbered.follow {s' : State lab} (h : Numbered s) (hshell : s'.shell = s.shell)
    (hf : ∀ (j : ℕ) (p' : Process), s'.processes[j]? = some p' →
      ∃ p, s.processes[j]? = some p ∧ Follows s p p') : Numbered s' := by
  have hmem (p' : Process) (hp' : p' ∈ s'.processes) : ∃ p ∈ s.processes, Follows s p p' := by
    obtain ⟨j, hj, rfl⟩ := List.mem_iff_getElem.mp hp'
    obtain ⟨p, hp, hpf⟩ := hf j _ (List.getElem?_eq_getElem hj)
    exact ⟨p, List.mem_of_getElem? hp, hpf⟩
  constructor
  · refine h.distinct.later fun j c hc => ?_
    rw [List.getElem?_map] at hc
    obtain ⟨p', hp', rfl⟩ := Option.map_eq_some_iff.mp hc
    obtain ⟨p, hp, hpf⟩ := hf j p' hp'
    exact ⟨p.child, by rw [List.getElem?_map, hp]; rfl, hpf.pid, hpf.alive⟩
  · intro p' hp'
    obtain ⟨p, hp, hpf⟩ := hmem p' hp'
    rw [hpf.pid, hshell]
    exact h.pids p hp
  · intro p' hp' ha' hstage' hg' q' hq' hqa'
    obtain ⟨p, hp, hpf⟩ := hmem p' hp'
    obtain ⟨q, hq, hqf⟩ := hmem q' hq'
    rw [hpf.group, hpf.pid] at hg'
    have ha := hpf.alive ha'
    have hstage := hpf.early hstage'
    rw [hpf.pid]
    rcases hqf.joined with hsame | ⟨hgroup, hown | hex⟩
    · rw [hsame]
      exact h.unled p hp ha hstage hg' q hq (hqf.alive hqa')
    · rw [hgroup, hown]
      intro hpid
      have heq := h.eq hq hp (hqf.alive hqa') ha hpid
      subst heq
      exact hg' hown
    · rw [hgroup]
      intro hpid
      rw [hpid] at hex
      exact h.no_group hp ha hstage hg' hex
  · intro p' hp' ha' htaking hg'
    obtain ⟨p, hp, hpf⟩ := hmem p' hp'
    rw [hpf.group, hpf.pid] at hg'
    rw [hpf.pid]
    rcases hpf.leads htaking hg' with ⟨hstage, hsame⟩ | hlead
    · rw [hsame]
      exact h.leads p hp (hpf.alive ha') hstage hg'
    · exact hlead

/-- A new process is in a group that was there. -/
theorem Numbered.append {s' : State lab} (h : Numbered s) {p : Process} {pid : ℕ}
    (hshell : s'.shell = s.shell) (hprocesses : s'.processes = s.processes ++ [p])
    (hchild : p.child = Child.start pid) (hfresh : FreshPid s pid) (hex : GroupExists s p.pgid)
    (hstage : p.stage ≠ .taking) : Numbered s' := by
  have hpid : p.child.pid = pid := by rw [hchild]; rfl
  obtain ⟨-, hne, hold⟩ := hfresh
  constructor
  · rw [hprocesses, List.map_append, List.map_singleton, hchild]
    refine h.distinct.fork fun c hc hlive => ?_
    obtain ⟨q, hq, rfl⟩ := List.mem_map.mp hc
    exact (hold q hq hlive).1
  · rw [hprocesses]
    intro q hq
    rw [hshell]
    rcases List.mem_append.mp hq with hq | hq
    · exact h.pids q hq
    · rw [List.mem_singleton.mp hq, hpid]
      exact hne
  · rw [hprocesses]
    intro q hq hqa hqs hqg r hr hra
    rcases List.mem_append.mp hq with hq | hq <;> rcases List.mem_append.mp hr with hr | hr
    · exact h.unled q hq hqa hqs hqg r hr hra
    · rw [List.mem_singleton.mp hr]
      intro heq
      rw [heq] at hex
      exact h.no_group hq hqa hqs hqg hex
    · rw [List.mem_singleton.mp hq, hpid]
      exact (hold r hr hra).2
    · rw [List.mem_singleton.mp hq, List.mem_singleton.mp hr, hpid]
      rintro rfl
      rcases hex with hex | ⟨x, hx, hxa, hxg⟩
      · exact hne hex
      · exact (hold x hx hxa).2 hxg
  · rw [hprocesses]
    intro q hq hqa hqt hqg
    rcases List.mem_append.mp hq with hq | hq
    · exact h.leads q hq hqa hqt hqg
    · rw [List.mem_singleton.mp hq] at hqt
      exact absurd hqt hstage

/-! ## The numbers the shell has noted -/

/-- The variable the shell is about to use as a group. -/
def Phase.pgid : Phase → Option ℕ
  | .forking _ _ _ pgid | .grouping _ _ _ _ pgid | .handing pgid _ => some pgid
  | _ => none

structure Noted (s : State lab) : Prop where
  keys : ∀ job ∈ s.jobs, job.key ≠ s.shell
  current : ∀ g ∈ s.phase.pgid, g ≠ s.shell
  newest : ∀ cmd background left pid pgid, s.phase = .grouping cmd background left pid pgid →
    ∀ p ∈ s.processes, p.Alive → p.ofShell = true → p.child.pid = pid → p.group = pgid

/-- Whether the terminal is with the shell's group; it may be anywhere at the start, and after
the shell was stopped. -/
def Phase.owned : Phase → Option Bool
  | .starting | .stopped => none
  | .prompt | .forking _ _ _ _ | .grouping _ _ _ _ _ | .handing _ _ => some true
  | .continuing _ _ given | .assigning _ _ given => some (given ≠ some true)
  | .waiting _ given | .restoring given => some !given

def Owned (s : State lab) : Prop :=
  ∀ b, s.phase.owned = some b → (s.foreground = s.shell ↔ b = true)

/-! ## The steps -/

@[simp] theorem sigttou_shell (s : State lab) (g : ℕ) : (sigttou s g).shell = s.shell := rfl

@[simp] theorem tcsetpgrp_shell (s : State lab) (g : ℕ) : (tcsetpgrp s g).shell = s.shell := by
  unfold tcsetpgrp
  split <;> rfl

@[simp] theorem tcsetpgrp_processes (s : State lab) (g : ℕ) :
    (tcsetpgrp s g).processes = s.processes := by
  unfold tcsetpgrp
  split <;> rfl

@[simp] theorem tcsetpgrp_jobs (s : State lab) (g : ℕ) : (tcsetpgrp s g).jobs = s.jobs := by
  unfold tcsetpgrp
  split <;> rfl

@[simp] theorem tcsetpgrp_phase (s : State lab) (g : ℕ) : (tcsetpgrp s g).phase = s.phase := by
  unfold tcsetpgrp
  split <;> rfl

theorem sigttou_phase (s : State lab) (g : ℕ) :
    (sigttou s g).phase = .stopped ∨ (sigttou s g).phase = s.phase := by
  unfold sigttou
  dsimp only
  split
  · exact Or.inl rfl
  · exact Or.inr rfl

theorem next_shell (s : State lab) (e : Event) : (next s e).shell = s.shell := by
  cases e <;> simp only [next]
  all_goals
    repeat' split
    all_goals simp

theorem follows_modify {processes : List Process} {f : Process → Process} {i j : ℕ}
    {p' : Process} (hf : ∀ p, processes[i]? = some p → Follows s p (f p))
    (h : (processes.modify i f)[j]? = some p') : ∃ p, processes[j]? = some p ∧ Follows s p p' := by
  obtain ⟨p, hp, rfl⟩ := KeyedTable.modify_some h
  refine ⟨p, hp, ?_⟩
  split
  · next hij => exact hf p (hij ▸ hp)
  · exact .refl s p

theorem follows_map {processes : List Process} {f : Process → Process} {j : ℕ} {p' : Process}
    (hf : ∀ p ∈ processes, Follows s p (f p)) (h : (processes.map f)[j]? = some p') :
    ∃ p, processes[j]? = some p ∧ Follows s p p' := by
  rw [List.getElem?_map] at h
  obtain ⟨p, hp, rfl⟩ := Option.map_eq_some_iff.mp h
  exact ⟨p, hp, hf p (List.mem_of_getElem? hp)⟩

theorem sigttou_follows {g j : ℕ} {p' : Process} (h : (sigttou s g).processes[j]? = some p') :
    ∃ p, s.processes[j]? = some p ∧ Follows s p p' := by
  refine follows_map (fun p _ => ?_) h
  split
  · exact follows_report s p .stopped
  · exact .refl s p

/-- A step that forks nobody keeps all processes. -/
theorem next_follows (h : Noted s) (he : Enabled s e) (hfork : ∀ pid, e ≠ .fork pid)
    (hspawn : ∀ i pid, e ≠ .spawn i pid) {j : ℕ} {p' : Process}
    (hp' : (next s e).processes[j]? = some p') :
    ∃ p, s.processes[j]? = some p ∧ Follows s p p' := by
  have hsame (hp' : s.processes[j]? = some p') : ∃ p, s.processes[j]? = some p ∧ Follows s p p' :=
    ⟨p', hp', .refl s p'⟩
  cases e with
  | fork pid => exact absurd rfl (hfork pid)
  | spawn i pid => exact absurd rfl (hspawn i pid)
  | start | restore =>
    simp only [next] at hp'
    split at hp'
    · exact hsame (by simpa using hp')
    · exact sigttou_follows hp'
  | launch line =>
    simp only [next] at hp'
    split at hp' <;> exact hsame hp'
  | forkFailed | addJob | assign | noChild =>
    simp only [next] at hp'
    split at hp' <;> exact hsame hp'
  | command idx foreground =>
    simp only [next] at hp'
    repeat' split at hp'
    all_goals exact hsame hp'
  | parentSetpgid =>
    simp only [next] at hp'
    split at hp'
    · next cmd background left pid pgid hp =>
      refine follows_map (fun p hps => ?_) hp'
      split
      · next hq =>
        rw [← h.newest _ _ _ _ _ hp p hps hq.2.2.1 hq.2.1 hq.1]
        exact follows_setpgid s p
      · exact .refl s p
    · exact hsame hp'
  | handOver =>
    simp only [next] at hp'
    split at hp'
    · split at hp'
      · exact hsame (by simpa using hp')
      · exact sigttou_follows hp'
    · exact hsame hp'
  | kill =>
    simp only [next] at hp'
    split at hp'
    · refine follows_map (fun p _ => ?_) hp'
      split
      · exact follows_report s p .continued
      · exact .refl s p
    · exact hsame hp'
  | wait i =>
    simp only [next] at hp'
    split at hp'
    · exact follows_modify (fun p _ => follows_consume s p) hp'
    · exact hsame hp'
  | handle i =>
    simp only [next] at hp'
    repeat' split at hp'
    · exact hsame hp'
    · exact hsame hp'
    · exact follows_modify (fun p _ => follows_consume s p) hp'
  | childSetpgid i =>
    obtain ⟨q, hq, hstage, -⟩ := he
    refine follows_modify (fun p hp => ?_) hp'
    rw [hp] at hq
    cases hq
    exact follows_joined s hstage
  | childTcsetpgrp i =>
    simp only [next] at hp'
    repeat' split at hp'
    · exact hsame hp'
    · exact follows_modify (fun p _ => follows_late s p (by simp) (by simp)) hp'
    · exact sigttou_follows hp'
  | exec i => exact follows_modify (fun p _ => follows_late s p (by simp) (by simp)) hp'
  | change i st => exact follows_modify (fun p _ => follows_report s p st) hp'
  | collect i => exact follows_modify (fun p _ => follows_consume s p) hp'

theorem At.groupExists {j : ℕ} {stage : Stage} (h : At s j stage) :
    ∀ p ∈ s.processes[j]?, GroupExists s p.pgid := by
  intro p hp
  obtain ⟨q, hq, -, hrun⟩ := h
  rw [Option.mem_def] at hp
  rw [hp] at hq
  cases hq
  refine Or.inr ⟨p, List.mem_of_getElem? hp, ?_, rfl⟩
  rw [hrun]
  simp

theorem numbered_next (hn : Numbered s) (h : Noted s) (he : Enabled s e) :
    Numbered (next s e) := by
  by_cases hfork : ∃ pid, e = .fork pid
  · obtain ⟨pid, rfl⟩ := hfork
    obtain ⟨cmd, background, left, pgid, hp, hfresh⟩ := enabled_fork he
    simp only [next, hp]
    exact hn.append rfl rfl rfl hfresh (Or.inl rfl) (by simp)
  · by_cases hspawn : ∃ j pid, e = .spawn j pid
    · obtain ⟨j, pid, rfl⟩ := hspawn
      obtain ⟨hat, hfresh⟩ := he
      simp only [next]
      split
      · exact hn
      · next p hp => exact hn.append rfl rfl rfl hfresh (hat.groupExists p hp) (by simp)
    · exact hn.follow (next_shell s e) fun j p' => next_follows h he (fun pid hf => hfork ⟨pid, hf⟩)
        (fun i pid hs => hspawn ⟨i, pid, hs⟩)

theorem setState_key {jobs : List (JobTable.Job ℕ lab.cmdSize)} {idx : ℕ} {st : JobState}
    {job : JobTable.Job ℕ lab.cmdSize} (h : job ∈ setState jobs idx st) :
    ∃ old ∈ jobs, job.key = old.key := by
  obtain ⟨k, hk⟩ := List.mem_iff_getElem?.mp h
  obtain ⟨old, hold, hkey, -⟩ := JobTable.setState_some hk
  exact ⟨old, List.mem_of_getElem? hold, hkey⟩

theorem record_key {jobs : List (JobTable.Job ℕ lab.cmdSize)} {g : ℕ} {st : Status}
    {job : JobTable.Job ℕ lab.cmdSize} (h : job ∈ JobTable.record jobs g st) :
    ∃ old ∈ jobs, job.key = old.key := by
  obtain ⟨k, hk⟩ := List.mem_iff_getElem?.mp h
  obtain ⟨old, hold, hkey, -⟩ := JobTable.record_some hk
  exact ⟨old, List.mem_of_getElem? hold, hkey⟩

theorem sigchldHandler_key {jobs : List (JobTable.Job ℕ lab.cmdSize)} {p : Process} {st : Status}
    {job : JobTable.Job ℕ lab.cmdSize} (h : job ∈ sigchldHandler jobs p st) :
    ∃ old ∈ jobs, job.key = old.key := by
  cases lab with
  | miniShell => exact ⟨job, h, rfl⟩
  | jobControl => exact record_key h
  | pipelines =>
    by_cases hst : st = .exited
    · rw [sigchldHandler, if_pos hst] at h
      exact ⟨job, h, rfl⟩
    · rw [sigchldHandler, if_neg hst] at h
      exact record_key h

theorem addJob_key {jobs : List (JobTable.Job ℕ lab.cmdSize)} {pgid : ℕ} {cmd : List Byte}
    {job : JobTable.Job ℕ lab.cmdSize} (h : job ∈ addJob jobs pgid cmd) :
    job ∈ jobs ∨ job.key = pgid := by
  have hadd (h : job ∈ JobTable.add jobs pgid cmd .running) : job ∈ jobs ∨ job.key = pgid := by
    unfold JobTable.add at h
    split at h
    · rcases List.mem_append.mp h with h | h
      · exact Or.inl h
      · rw [List.mem_singleton.mp h]
        exact Or.inr rfl
    · exact Or.inl h
  cases lab with
  | miniShell => exact Or.inl h
  | jobControl | pipelines => exact hadd h

theorem next_keys (h : Noted s) (e : Event) : ∀ job ∈ (next s e).jobs, job.key ≠ s.shell := by
  have hold {jobs : List (JobTable.Job ℕ lab.cmdSize)}
      (hj : ∀ job ∈ jobs, ∃ old ∈ s.jobs, job.key = old.key) :
      ∀ job ∈ jobs, job.key ≠ s.shell := by
    intro job hjob
    obtain ⟨old, hold, hkey⟩ := hj job hjob
    rw [hkey]
    exact h.keys old hold
  cases e with
  | addJob =>
    simp only [next]
    split
    · next cmd background pgid hp =>
      intro job hjob
      rcases addJob_key hjob with hjob | hkey
      · exact h.keys job hjob
      · rw [hkey]
        exact h.current pgid (by rw [hp]; rfl)
    · exact h.keys
  | assign =>
    simp only [next]
    split
    · exact hold fun _ => setState_key
    · exact h.keys
  | handle j =>
    simp only [next]
    repeat' split
    · exact h.keys
    · exact h.keys
    · exact hold fun _ => sigchldHandler_key
  | _ =>
    simp only [next]
    repeat' split
    all_goals simpa only [tcsetpgrp_jobs, sigttou] using h.keys

theorem next_current (hpos : 0 < s.shell) (h : Noted s) (he : Enabled s e) :
    ∀ g ∈ (next s e).phase.pgid, g ≠ s.shell := by
  have hcur := h.current
  have hstopped (g' : ℕ) : ∀ g ∈ (sigttou s g').phase.pgid, g ≠ s.shell := by
    rcases sigttou_phase s g' with hp | hp <;> rw [hp]
    · rintro g ⟨⟩
    · exact hcur
  cases e with
  | launch line =>
    simp only [next]
    split <;>
      · rintro g ⟨⟩
        exact Nat.ne_of_lt hpos
  | fork pid =>
    obtain ⟨cmd, background, left, pgid, hp, hfresh⟩ := enabled_fork he
    rw [hp] at hcur
    simp only [next, hp]
    split
    · rintro g ⟨⟩
      exact hfresh.2.1
    · exact hcur
  | command idx foreground =>
    simp only [next]
    split
    · exact hcur
    · next job hjob =>
      repeat' split
      · exact hcur
      · rintro g ⟨⟩
        exact h.keys job (List.mem_of_getElem? hjob)
      · rintro g ⟨⟩
  | forkFailed | parentSetpgid | addJob | handOver =>
    simp only [next]
    split
    · next hp =>
      rw [hp] at hcur
      repeat' split
      all_goals first | exact hcur | exact hstopped _ | (rintro g ⟨⟩)
    · exact hcur
  | childTcsetpgrp j =>
    simp only [next]
    repeat' split
    · exact hcur
    · rw [tcsetpgrp_phase]
      exact hcur
    · exact hstopped _
  | _ =>
    simp only [next]
    repeat' split
    all_goals first | exact hcur | exact hstopped _ | (rintro g ⟨⟩)

/-- Only `fork` leads to the point before the parent's `setpgid`. -/
theorem grouping_of_next {cmd : List Byte} {background : Bool} {left pid pgid : ℕ}
    (hfork : ∀ pid, e ≠ .fork pid) (h : (next s e).phase = .grouping cmd background left pid pgid) :
    s.phase = .grouping cmd background left pid pgid := by
  have hstopped (g : ℕ) (h : (sigttou s g).phase = .grouping cmd background left pid pgid) :
      s.phase = .grouping cmd background left pid pgid := by
    rcases sigttou_phase s g with hp | hp <;> rw [hp] at h
    · cases h
    · exact h
  cases e with
  | fork pid => exact absurd rfl (hfork pid)
  | childTcsetpgrp j =>
    simp only [next] at h
    repeat' split at h
    · exact h
    · rwa [tcsetpgrp_phase] at h
    · exact hstopped _ h
  | _ =>
    simp only [next] at h
    repeat' split at h
    all_goals first | exact h | exact hstopped _ h | cases h

theorem newest_next (h : Noted s) (he : Enabled s e) {cmd : List Byte} {background : Bool}
    {left pid pgid : ℕ} (hphase : (next s e).phase = .grouping cmd background left pid pgid)
    {p' : Process} (hp' : p' ∈ (next s e).processes) (ha' : p'.Alive) (hs' : p'.ofShell = true)
    (hpid' : p'.child.pid = pid) : p'.group = pgid := by
  by_cases hfork : ∃ n, e = .fork n
  · obtain ⟨n, rfl⟩ := hfork
    obtain ⟨_, _, _, _, hp, hfresh⟩ := enabled_fork he
    simp only [next, hp] at hphase hp'
    cases hphase
    rcases List.mem_append.mp hp' with hold | hnew
    · exact absurd hpid' (hfresh.2.2 p' hold ha').1
    · rw [List.mem_singleton.mp hnew, ite_not]
  · have hold := grouping_of_next (fun n hn => hfork ⟨n, hn⟩) hphase
    by_cases hspawn : ∃ j n, e = .spawn j n
    · obtain ⟨j, n, rfl⟩ := hspawn
      simp only [next] at hp'
      split at hp'
      · exact h.newest _ _ _ _ _ hold p' hp' ha' hs' hpid'
      · rcases List.mem_append.mp hp' with hp' | hnew
        · exact h.newest _ _ _ _ _ hold p' hp' ha' hs' hpid'
        · rw [List.mem_singleton.mp hnew] at hs'
          cases hs'
    · obtain ⟨j, hj⟩ := List.mem_iff_getElem?.mp hp'
      obtain ⟨p, hp, hf⟩ := next_follows h he (fun n hn => hfork ⟨n, hn⟩)
        (fun i n hn => hspawn ⟨i, n, hn⟩) hj
      rw [hf.group]
      apply h.newest _ _ _ _ _ hold p (List.mem_of_getElem? hp) (hf.alive ha')
      · rw [← hf.ofShell, hs']
      · rw [← hf.pid, hpid']

theorem noted_next (hpos : 0 < s.shell) (h : Noted s) (he : Enabled s e) : Noted (next s e) := by
  constructor
  · rw [next_shell]
    exact next_keys h e
  · rw [next_shell]
    exact next_current hpos h he
  · intro _ _ _ _ _ hphase p' hp' ha' hs' hpid'
    exact newest_next h he hphase hp' ha' hs' hpid'

/-! ## Who has the terminal -/

theorem owned_sigttou (h : Owned s) (g : ℕ) : Owned (sigttou s g) := by
  intro b hb
  rcases sigttou_phase s g with hp | hp <;> rw [hp] at hb
  · cases hb
  · exact h b hb

/-- A child that is still in the shell's group has no group of its own to put in front. -/
theorem childTcsetpgrp_owned (hn : Numbered s) (h : Owned s) {j : ℕ} (hat : At s j .taking) :
    Owned (next s (.childTcsetpgrp j)) := by
  obtain ⟨p, hp, hstage, hrun⟩ := hat
  rw [Option.mem_def] at hp
  have hmem := List.mem_of_getElem? hp
  have halive : p.Alive := by
    rw [Process.Alive, hrun]
    simp
  simp only [next, hp]
  by_cases hfg : s.foreground = p.pgid
  · rw [if_pos hfg]
    intro b hb
    simp only [tcsetpgrp_phase, tcsetpgrp_shell] at hb ⊢
    unfold tcsetpgrp
    split
    · next hex =>
      have hback : s.foreground ≠ s.shell := by
        intro hshell
        have hgroup : p.group = p.child.pid := by
          by_contra hg
          exact hn.no_group hmem halive (Or.inr hstage) hg hex
        have hlead := hn.leads p hmem halive hstage hgroup
        exact hn.pids p hmem (by rw [← hlead, ← hfg, hshell])
      rw [← h b hb]
      exact iff_of_false (hn.pids p hmem) hback
    · exact h b hb
  · rw [if_neg hfg]
    exact owned_sigttou h p.pgid

theorem handOver_owned (hn : Noted s) (h : Owned s) : Owned (next s .handOver) := by
  simp only [next]
  split
  · next pgid fg hp =>
    have hfg : s.foreground = s.shell := (h true (by rw [hp]; rfl)).mpr rfl
    have hne : pgid ≠ s.shell := hn.current pgid (by rw [hp]; rfl)
    rw [if_pos hfg]
    by_cases hex : GroupExists s pgid <;> cases fg <;> rintro b ⟨⟩ <;>
      simp [tcsetpgrp, hex, hfg, hne]
  · exact h

theorem Owned.keep {s' : State lab} (h : Owned s) (hfg : s'.foreground = s.foreground)
    (hshell : s'.shell = s.shell) (hp : s'.phase.owned = s.phase.owned) : Owned s' := by
  intro b hb
  rw [hfg, hshell]
  exact h b (hp ▸ hb)

theorem owned_next (hnum : Numbered s) (hn : Noted s) (h : Owned s) (he : Enabled s e) :
    Owned (next s e) := by
  have hprompt {s' : State lab} (hfg : s'.foreground = s'.shell) (hp : s'.phase = .prompt) :
      Owned s' := by
    intro b hb
    rw [hp] at hb
    cases hb
    exact iff_of_true hfg rfl
  cases e with
  | start =>
    simp only [next]
    split
    · next hfg => exact hprompt hfg rfl
    · exact owned_sigttou h _
  | restore =>
    simp only [next]
    split
    · next hfg =>
      apply hprompt _ rfl
      simp [tcsetpgrp, GroupExists]
    · exact owned_sigttou h _
  | handOver => exact handOver_owned hn h
  | childTcsetpgrp j => exact childTcsetpgrp_owned hnum h he
  | launch line =>
    obtain ⟨hp, -⟩ := he
    simp only [next]
    split <;> exact h.keep rfl rfl (by rw [hp]; rfl)
  | command idx foreground =>
    obtain ⟨hp, -⟩ := he
    simp only [next]
    repeat' split
    · exact h
    · exact h
    · exact h.keep rfl rfl (by rw [hp]; rfl)
    · exact h.keep rfl rfl (by rw [hp]; rfl)
  | forkFailed | addJob =>
    simp only [next]
    split
    · next hp =>
      refine h.keep rfl rfl ?_
      rw [hp]
      dsimp only
      split <;> rfl
    · exact h
  | assign =>
    simp only [next]
    split
    · next idx pgid given hp =>
      refine h.keep rfl rfl ?_
      rw [hp]
      rcases given with _ | _ | _ <;> rfl
    · exact h
  | fork pid | parentSetpgid | kill | wait j | noChild =>
    simp only [next]
    split
    · next hp => exact h.keep rfl rfl (by rw [hp]; rfl)
    · exact h
  | handle j | spawn j pid =>
    simp only [next]
    repeat' split
    all_goals exact h
  | childSetpgid j | exec j | change j st | collect j => exact h

/-! ## Every run -/

structure Invariant (s : State lab) : Prop where
  positive : 0 < s.shell
  numbered : Numbered s
  noted : Noted s
  owned : Owned s

theorem invariant_initial {shell : ℕ} (hpos : 0 < shell) (foreground : ℕ) :
    Invariant (initial shell foreground : State lab) where
  positive := hpos
  numbered := by
    constructor
    · intro i j c d hc
      simp [initial] at hc
    all_goals simp [initial]
  noted := by constructor <;> simp [initial, Phase.pgid]
  owned := by
    intro b hb
    cases hb

theorem invariant_next (h : Invariant s) (he : Enabled s e) : Invariant (next s e) where
  positive := by
    rw [next_shell]
    exact h.positive
  numbered := numbered_next h.numbered h.noted he
  noted := noted_next h.positive h.noted he
  owned := owned_next h.numbered h.noted h.owned he

/-- The call after the wait is the one that goes wrong, unless the job's group was gone before
it could be given the terminal. -/
theorem keepsTerminal_iff (h : Invariant s) (he : Enabled s e) :
    KeepsTerminal s e ↔ NoReturn s e := by
  have hprompt (hp : (next s e).phase = .prompt) : (next s e).foreground = s.shell := by
    rw [← next_shell s e]
    exact ((invariant_next h he).owned true (by rw [hp]; rfl)).mpr rfl
  have hcall (hc : Calls e) : s.foreground = s.shell ↔ NoReturn s e := by
    cases e with
    | start => exact Iff.rfl
    | handOver =>
      simp only [Enabled] at he
      split at he
      · next pgid fg hp => exact iff_of_true ((h.owned true (by rw [hp]; rfl)).mpr rfl) trivial
      · exact he.elim
    | restore =>
      simp only [Enabled] at he
      split at he
      · next given hp =>
        rw [h.owned (!given) (by rw [hp]; rfl), NoReturn, hp]
        cases given <;> simp
      · exact he.elim
    | _ => exact hc.elim
  constructor
  · intro hk
    by_cases hc : Calls e
    · exact (hcall hc).mp (hk.call hc)
    · cases e <;> trivial
  · intro hr
    exact ⟨fun hc => (hcall hc).mpr hr, hprompt⟩

/-- In the runs without such a return, and in no others, the shell keeps to the rule. -/
theorem terminal_kept_iff (lab : Lab) {shell : ℕ} (hpos : 0 < shell) (foreground : ℕ)
    {es : List Event} (h : (machine lab shell foreground).Valid es) :
    (machine lab shell foreground).Along KeepsTerminal es ↔
      (machine lab shell foreground).Along NoReturn es :=
  Machine.along_congr (fun _ _ hv _ he => keepsTerminal_iff (Machine.invariant
    (invariant_initial hpos foreground) (fun _ _ => invariant_next) hv) he) h h

/-- A pipeline in the background and then `fg 1`, which does not come back. -/
theorem terminal_kept_fg : (machine .pipelines 100 100).Along KeepsTerminal
    [.start, .launch (ascii "yes | cat &"), .fork 101, .parentSetpgid, .fork 102, .parentSetpgid,
      .childSetpgid 1, .addJob, .childSetpgid 0, .exec 0, .exec 1, .command 0 true, .handOver,
      .kill, .assign] :=
  (terminal_kept_iff .pipelines (by decide) 100 (by decide +kernel)).mpr (by decide +kernel)

/-- One command in the foreground, up to the call after its wait. -/
def oneCommand : List Event :=
  [.start, .launch (ascii "ls"), .fork 101, .parentSetpgid, .addJob, .handOver, .childSetpgid 0,
    .childTcsetpgrp 0, .exec 0, .change 0 .exited, .wait 0, .restore]

theorem one_command_stops_shell :
    ((machine .miniShell 100 100).Valid oneCommand ∧
      ¬ (machine .miniShell 100 100).Along KeepsTerminal oneCommand) ∧
    ((machine .jobControl 100 100).Valid oneCommand ∧
      ¬ (machine .jobControl 100 100).Along KeepsTerminal oneCommand) ∧
    (machine .pipelines 100 100).Valid oneCommand ∧
      ¬ (machine .pipelines 100 100).Along KeepsTerminal oneCommand := by
  decide +kernel

end TerminalControl
