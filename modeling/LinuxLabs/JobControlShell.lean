import LinuxLabs.Execution
import LinuxLabs.JobTable

/-! # The job-control shell (lab 11)
The main program is a position between two statements that matter here; the SIGCHLD
handler may take a status at any of them, and while the main program waits either may.
Launches are numbered by their place in `processes`; `add_job` runs once for each, so
entry `k` of the table is the one of launch `k`. -/
namespace JobControlShell

open Execution CString ChildProcess
open JobTable (JobState maxJobs setState recorded isBuiltin isBackground)

abbrev cmdSize : ℕ := 128

abbrev Job := JobTable.Job ℕ cmdSize

/-- `launching`: `fork` has returned, `add_job` has not run. `continuing` and `assigning`:
`fg` or `bg` has found the job unfinished, and then has sent SIGCONT. -/
inductive Phase where
  | prompt
  | launching (pid : ℕ) (cmd : List Byte) (background : Bool)
  | waiting (pid : ℕ)
  | continuing (idx pid : ℕ) (foreground : Bool)
  | assigning (idx pid : ℕ) (foreground : Bool)
  deriving DecidableEq

structure State where
  processes : List Child
  jobs : List Job
  phase : Phase

def initial : State := ⟨[], [], .prompt⟩

def findJob (jobs : List Job) (pid : ℕ) : Option ℕ := JobTable.find jobs pid

def addJob (jobs : List Job) (pid : ℕ) (cmd : List Byte) (st : JobState) : List Job :=
  JobTable.add jobs pid cmd st

/-- One round of `sigchld_handler`, for what `waitpid` returned. -/
def sigchldHandler (jobs : List Job) (pid : ℕ) (st : Status) : List Job :=
  JobTable.record jobs pid st

/-- `handle i` and `wait i` take the pending status of launch `i`, in the handler and in the
foreground `waitpid`; `noChild` is that `waitpid` failing. -/
inductive Event where
  | launch (pid : ℕ) (line : List Byte)
  | addJob
  | command (idx : ℕ) (foreground : Bool)
  | kill
  | assign
  | wait (i : ℕ)
  | noChild
  | handle (i : ℕ)
  | change (i : ℕ) (st : Status)
  deriving DecidableEq

def Enabled (s : State) : Event → Prop
  | .launch pid line => s.phase = .prompt ∧ line ≠ [] ∧ isBuiltin line = false ∧
    ∀ c ∈ s.processes, c.life ≠ .reaped → c.pid ≠ pid
  | .addJob => match s.phase with
    | .launching _ _ _ => True
    | _ => False
  | .command idx _ => s.phase = .prompt ∧ idx < s.jobs.length
  | .kill => match s.phase with
    | .continuing _ _ _ => True
    | _ => False
  | .assign => match s.phase with
    | .assigning _ _ _ => True
    | _ => False
  | .wait i => match s.phase with
    | .waiting pid => ∃ c ∈ s.processes[i]?, c.pid = pid ∧
      (c.pending = some .stopped ∨ c.pending = some .exited)
    | _ => False
  | .noChild => match s.phase with
    | .waiting pid => ∀ c ∈ s.processes, c.pid = pid → c.life = .reaped
    | _ => False
  | .handle i => ∃ c ∈ s.processes[i]?, c.pending ≠ none
  | .change i st => ∃ c ∈ s.processes[i]?, c.CanReport st

def next (s : State) : Event → State
  | .launch pid line =>
    { s with
      processes := s.processes ++ [Child.start pid]
      phase := if isBackground line then .launching pid line.dropLast true
        else .launching pid line false }
  | .addJob =>
    match s.phase with
    | .launching pid cmd background =>
      { s with
        jobs := addJob s.jobs pid cmd .running
        phase := if background then .prompt else .waiting pid }
    | _ => s
  | .command idx foreground =>
    match s.jobs[idx]? with
    | none => s
    | some job =>
      if job.state = .done then s else { s with phase := .continuing idx job.key foreground }
  | .kill =>
    match s.phase with
    | .continuing idx pid foreground =>
      { s with
        processes := s.processes.map fun c => if c.pid = pid then c.resume else c
        phase := .assigning idx pid foreground }
    | _ => s
  | .assign =>
    match s.phase with
    | .assigning idx pid foreground =>
      { s with
        jobs := setState s.jobs idx .running
        phase := if foreground then .waiting pid else .prompt }
    | _ => s
  | .wait i => { s with processes := s.processes.modify i Child.consume, phase := .prompt }
  | .noChild => { s with phase := .prompt }
  | .handle i =>
    match s.processes[i]? with
    | none => s
    | some c =>
      match c.pending with
      | none => s
      | some st =>
        { s with
          processes := s.processes.modify i Child.consume
          jobs := sigchldHandler s.jobs c.pid st }
  | .change i st => { s with processes := s.processes.modify i fun c => c.report st }

def machine : Machine State Event := ⟨initial, Enabled, next⟩

instance (s : State) (e : Event) : Decidable (Enabled s e) := by
  cases e <;> simp only [Enabled]
  case addJob | kill | assign | wait | noChild => split <;> infer_instance
  all_goals infer_instance

instance (s : State) (e : Event) : Decidable (machine.Enabled s e) :=
  inferInstanceAs (Decidable (Enabled s e))

/-! ## Where an event of the main program can happen -/

theorem enabled_addJob {s : State} (he : Enabled s .addJob) :
    ∃ pid cmd background, s.phase = .launching pid cmd background := by
  simp only [Enabled] at he
  split at he
  · next hp => exact ⟨_, _, _, hp⟩
  · exact he.elim

theorem enabled_kill {s : State} (he : Enabled s .kill) :
    ∃ idx pid foreground, s.phase = .continuing idx pid foreground := by
  simp only [Enabled] at he
  split at he
  · next hp => exact ⟨_, _, _, hp⟩
  · exact he.elim

theorem enabled_assign {s : State} (he : Enabled s .assign) :
    ∃ idx pid foreground, s.phase = .assigning idx pid foreground := by
  simp only [Enabled] at he
  split at he
  · next hp => exact ⟨_, _, _, hp⟩
  · exact he.elim

theorem enabled_wait {s : State} {i : ℕ} (he : Enabled s (.wait i)) :
    ∃ pid, s.phase = .waiting pid := by
  simp only [Enabled] at he
  split at he
  · next hp => exact ⟨_, hp⟩
  · exact he.elim

theorem enabled_noChild {s : State} (he : Enabled s .noChild) :
    ∃ pid, s.phase = .waiting pid := by
  simp only [Enabled] at he
  split at he
  · next hp => exact ⟨_, hp⟩
  · exact he.elim

/-! ## The table and the processes -/

/-- An entry's state says whether its process is reaped and whether it was last seen stopped. -/
def Shows (st : JobState) (c : Child) : Prop :=
  (st = .done ↔ c.life = .reaped) ∧ (st = .stopped ↔ c.last = some .stopped)

/-- Each of the first `maxJobs` launches has its entry, and every entry is right. -/
structure TableAgrees (s : State) : Prop where
  entries : s.jobs.length = min s.processes.length maxJobs
  pids : ∀ (k : ℕ) (job : Job) (c : Child), s.jobs[k]? = some job → s.processes[k]? = some c →
    job.key = c.pid
  shows : ∀ (k : ℕ) (job : Job) (c : Child), s.jobs[k]? = some job → s.processes[k]? = some c →
    Shows job.state c

def AtRest (s : State) : Prop := s.phase = .prompt ∧ ∀ c ∈ s.processes, c.pending = none

/-- `RUNNING` is or will be right for the process: it is not reaped, and if it was last seen
stopped it has a newer status. -/
def MayRun (c : Child) : Prop := c.life ≠ .reaped ∧ (c.last = some .stopped → c.pending ≠ none)

/-- The handler finds the process's own entry, the foreground wait takes nothing the table does
not show, and `RUNNING` is only written where it may stand. -/
def Kept (s : State) : Event → Prop
  | .handle i => ∀ c ∈ s.processes[i]?, ∀ k ∈ findJob s.jobs c.pid,
    k = i ∨ c.pending = some .exited ∧ s.jobs.length ≤ i
  | .wait i => ∀ c ∈ s.processes[i]?, ∀ job ∈ s.jobs[i]?,
    c.pending = some .stopped ∧ job.state = .stopped
  | .addJob => s.jobs.length < maxJobs → ∀ c ∈ s.processes.getLast?, MayRun c
  | .assign => match s.phase with
    | .assigning idx _ _ => ∀ c ∈ s.processes[idx]?, MayRun c
    | _ => True
  | _ => True

instance (s : State) : Decidable (AtRest s) := inferInstanceAs (Decidable (_ ∧ _))

instance (st : JobState) (c : Child) : Decidable (Shows st c) :=
  inferInstanceAs (Decidable (_ ∧ _))

instance (c : Child) : Decidable (MayRun c) := inferInstanceAs (Decidable (_ ∧ _))

instance (s : State) (e : Event) : Decidable (Kept s e) := by
  cases e <;> simp only [Kept]
  case assign => split <;> infer_instance
  all_goals infer_instance

/-! ## When an entry is right -/

theorem shows_consume {c : Child} {st : Status} (h : c.pending = some st) :
    Shows (recorded st) c.consume := by
  rw [Shows, Child.consume_reaped h, Child.consume_last h]
  cases st <;> simp [recorded]

theorem shows_reaped {c : Child} (h : c.life = .reaped) : Shows .done c := by
  rw [Shows, c.released.mp h]
  simp [h]

theorem shows_running {c : Child} (h : MayRun c) (hp : c.pending = none) : Shows .running c := by
  obtain ⟨hlife, hlast⟩ := h
  refine ⟨⟨fun hs => (by cases hs), fun hr => absurd hr hlife⟩,
    ⟨fun hs => (by cases hs), fun hl => absurd hp (hlast hl)⟩⟩

/-! ## The entries of the table -/

def Phase.unrecorded : Phase → ℕ
  | .launching _ _ _ => 1
  | .prompt | .waiting _ | .continuing _ _ _ | .assigning _ _ _ => 0

structure Invariant (s : State) : Prop where
  distinct : Distinct s.processes
  entries : s.jobs.length = min (s.processes.length - s.phase.unrecorded) maxJobs
  newest : ∀ pid cmd background, s.phase = .launching pid cmd background →
    ∃ c, s.processes[s.processes.length - 1]? = some c ∧ c.pid = pid
  pids : ∀ (k : ℕ) (job : Job) (c : Child), s.jobs[k]? = some job → s.processes[k]? = some c →
    job.key = c.pid
  shows : ∀ (k : ℕ) (job : Job) (c : Child), s.jobs[k]? = some job → s.processes[k]? = some c →
    c.pending = none → Shows job.state c

/-- A step after which the same launches have the same entries. -/
theorem Invariant.kept {s s' : State} (h : Invariant s) (hl : Later s.processes s'.processes)
    (hlen : s'.processes.length = s.processes.length) (hjl : s'.jobs.length = s.jobs.length)
    (hjobs : ∀ (k : ℕ) (job' : Job), s'.jobs[k]? = some job' →
      ∃ job, s.jobs[k]? = some job ∧ job'.key = job.key)
    (hphase : s'.phase = s.phase ∨ s'.phase.unrecorded = 0 ∧ s.phase.unrecorded = 0)
    (hshows : ∀ (k : ℕ) (job : Job) (c : Child), s'.jobs[k]? = some job →
      s'.processes[k]? = some c → c.pending = none → Shows job.state c) : Invariant s' := by
  refine ⟨h.distinct.later hl, ?_, fun pid cmd background hp => ?_, fun k job' d hj hd => ?_,
    hshows⟩
  · rw [hjl, hlen, h.entries]
    rcases hphase with hp | ⟨hp', hp⟩
    · rw [hp]
    · rw [hp', hp]
  · rcases hphase with heq | ⟨hz, _⟩
    · obtain ⟨c, hc, hpid⟩ := h.newest pid cmd background (heq ▸ hp)
      have hlt := (List.getElem?_eq_some_iff.mp hc).1
      have hd : s'.processes[s'.processes.length - 1]? =
          some s'.processes[s'.processes.length - 1] := List.getElem?_eq_getElem (by omega)
      obtain ⟨c', hc', hpid', _⟩ := hl _ _ hd
      rw [hlen, hc] at hc'
      cases hc'
      exact ⟨_, hd, hpid'.trans hpid⟩
    · rw [hp] at hz
      cases hz
  · obtain ⟨job, hjob, hpid⟩ := hjobs k job' hj
    obtain ⟨c, hc, hcpid, _⟩ := hl k d hd
    rw [hpid, hcpid]
    exact h.pids k job c hjob hc

theorem Invariant.launch {s : State} (h : Invariant s) {pid : ℕ} {line : List Byte}
    (he : Enabled s (.launch pid line)) : Invariant (next s (.launch pid line)) := by
  obtain ⟨hp, _, _, hfresh⟩ := he
  have hphase : ∃ cmd background,
      (next s (.launch pid line)).phase = .launching pid cmd background := by
    simp only [next]
    split
    · exact ⟨_, _, rfl⟩
    · exact ⟨_, _, rfl⟩
  obtain ⟨cmd, background, hphase⟩ := hphase
  have hentries := h.entries
  have hlen : s.jobs.length ≤ s.processes.length := by
    rw [hentries]
    exact (min_le_left _ _).trans (Nat.sub_le _ _)
  have hold {k : ℕ} {job : Job} {c : Child} (hj : s.jobs[k]? = some job)
      (hc : (s.processes ++ [Child.start pid])[k]? = some c) : s.processes[k]? = some c := by
    have hk := (List.getElem?_eq_some_iff.mp hj).1
    rwa [List.getElem?_append_left (by omega)] at hc
  refine ⟨h.distinct.fork hfresh, ?_, fun pid' cmd' background' hp' => ?_, fun k job c hj hc => ?_,
    fun k job c hj hc hpend => ?_⟩
  · rw [hphase]
    rw [hp] at hentries
    simpa [next, Phase.unrecorded] using hentries
  · rw [hphase] at hp'
    cases hp'
    refine ⟨Child.start pid, ?_, rfl⟩
    simp [next]
  · exact h.pids k job c hj (hold hj hc)
  · exact h.shows k job c hj (hold hj hc) hpend

theorem Invariant.add_entry {s : State} (h : Invariant s) {pid : ℕ} {cmd : List Byte}
    {background : Bool} (hp : s.phase = .launching pid cmd background) (hk : Kept s .addJob) :
    Invariant (next s .addJob) := by
  obtain ⟨c, hc, hpid⟩ := h.newest pid cmd background hp
  have hpos := (List.getElem?_eq_some_iff.mp hc).1
  have hentries := h.entries
  rw [hp] at hentries
  change s.jobs.length = min (s.processes.length - 1) maxJobs at hentries
  have hz : (if background then Phase.prompt else .waiting pid).unrecorded = 0 := by
    split <;> rfl
  have hnot {pid' cmd' background'} : (if background then Phase.prompt else .waiting pid) ≠
      .launching pid' cmd' background' := by
    split <;> simp
  simp only [next, hp]
  by_cases hroom : s.jobs.length < maxJobs
  · have hlast : s.processes[s.jobs.length]? = some c := by
      rw [← hc]
      congr 1
      omega
    have hrun : MayRun c := hk hroom c (by rw [List.getLast?_eq_getElem?]; exact hc)
    simp only [addJob, JobTable.add, if_pos hroom]
    refine ⟨h.distinct, ?_, fun _ _ _ hp' => absurd hp' hnot, fun k job d hj hd => ?_,
      fun k job d hj hd hpend => ?_⟩
    · simp only [List.length_append, List.length_singleton, hz]
      omega
    · rcases KeyedTable.append_some hj with hj | ⟨rfl, rfl⟩
      · exact h.pids k job d hj hd
      · rw [hlast] at hd
        cases hd
        exact hpid.symm
    · rcases KeyedTable.append_some hj with hj | ⟨rfl, rfl⟩
      · exact h.shows k job d hj hd hpend
      · rw [hlast] at hd
        cases hd
        exact shows_running hrun hpend
  · simp only [addJob, JobTable.add, if_neg hroom]
    refine ⟨h.distinct, ?_, fun _ _ _ hp' => absurd hp' hnot, h.pids, h.shows⟩
    simp only [hz]
    omega

theorem consume_later (cs : List Child) (i : ℕ) : Later cs (cs.modify i Child.consume) :=
  later_modify cs i fun _ => ⟨Child.consume_pid, Child.consume_not_reaped⟩

theorem Invariant.wait {s : State} (h : Invariant s) {i : ℕ} (he : Enabled s (.wait i))
    (hk : Kept s (.wait i)) : Invariant (next s (.wait i)) := by
  have hphase : s.phase.unrecorded = 0 := by
    obtain ⟨pid, hp⟩ := enabled_wait he
    rw [hp]
    rfl
  refine h.kept (consume_later s.processes i) (List.length_modify ..) rfl
    (fun k job hj => ⟨job, hj, rfl⟩) (Or.inr ⟨rfl, hphase⟩) fun k job d hj hd hpend => ?_
  obtain ⟨c, hc, rfl⟩ := KeyedTable.modify_some hd
  by_cases hik : i = k
  · -- what the foreground wait takes is a stop that the entry shows already
    subst k
    obtain ⟨hst, hshown⟩ := hk c hc job hj
    rw [if_pos rfl, hshown]
    exact shows_consume hst
  · rw [if_neg hik] at hpend ⊢
    exact h.shows k job c hj hc hpend

/-- An older entry of a recycled number: its process is gone. -/
theorem Invariant.recycled {s : State} (h : Invariant s) {i k : ℕ} {c d : Child} {job : Job}
    (hc : s.processes[i]? = some c) (hlive : c.life ≠ .reaped) (hd : s.processes[k]? = some d)
    (hj : s.jobs[k]? = some job) (hpid : job.key = c.pid) (hik : i ≠ k) : d.life = .reaped := by
  by_contra hdlive
  have hown := h.pids k job d hj hd
  exact hik (h.distinct i k c d hc hd hlive hdlive (hpid.symm.trans hown))

theorem Invariant.handle {s : State} (h : Invariant s) {i : ℕ} (hk : Kept s (.handle i)) :
    Invariant (next s (.handle i)) := by
  simp only [next]
  cases hc : s.processes[i]? with
  | none => exact h
  | some c =>
    dsimp only
    cases hst : c.pending with
    | none => exact h
    | some st =>
      refine h.kept (consume_later s.processes i) (List.length_modify ..)
        (JobTable.record_length ..) (fun k job hj => ?_) (Or.inl rfl) fun k job d hj hd hpend => ?_
      · obtain ⟨old, hold, hpid, _⟩ := JobTable.record_some hj
        exact ⟨old, hold, hpid⟩
      · obtain ⟨old, hold, _, hstate⟩ := JobTable.record_some hj
        obtain ⟨d', hd', rfl⟩ := KeyedTable.modify_some hd
        by_cases hik : i = k
        · -- the process's own entry is the one that is found
          subst k
          rw [hc] at hd'
          cases hd'
          have hpid := h.pids i old c hold hc
          obtain ⟨k, hf⟩ := Option.ne_none_iff_exists'.mp (JobTable.find_ne_none hold)
          rw [hpid] at hf
          have hlt := (List.getElem?_eq_some_iff.mp hold).1
          rcases hk c hc k hf with rfl | ⟨_, hle⟩
          · rw [hstate, if_pos hf, if_pos rfl]
            exact shows_consume hst
          · omega
        · rw [if_neg hik] at hpend ⊢
          rw [hstate]
          split
          · next hf =>
            rcases hk c hc k hf with rfl | ⟨hex, _⟩
            · exact absurd rfl hik
            · rw [hst] at hex
              cases hex
              obtain ⟨job', hj', hpid⟩ := JobTable.find_some hf
              rw [hold] at hj'
              cases hj'
              have hlive : c.life ≠ .reaped := by
                intro hr
                rw [Child.pending_of_reaped hr] at hst
                cases hst
              exact shows_reaped (h.recycled hc hlive hd' hold hpid hik)
          · exact h.shows k old d' hold hd' hpend

theorem Invariant.change {s : State} (h : Invariant s) {i : ℕ} {st : Status}
    (he : Enabled s (.change i st)) : Invariant (next s (.change i st)) := by
  obtain ⟨c, hc, hcan⟩ := he
  have hlater : Later s.processes (s.processes.modify i fun c => c.report st) :=
    later_modify _ i fun _ => ⟨Child.report_pid, fun hr => Child.report_reaped.not.mp hr⟩
  refine h.kept hlater (List.length_modify ..) rfl (fun k job hj => ⟨job, hj, rfl⟩) (Or.inl rfl)
    fun k job d hj hd hpend => ?_
  obtain ⟨c', hc', rfl⟩ := KeyedTable.modify_some hd
  by_cases hik : i = k
  · subst k
    obtain rfl := Option.some.inj (hc.symm.trans hc')
    rw [if_pos rfl, Child.report_pending hcan] at hpend
    cases hpend
  · rw [if_neg hik] at hpend ⊢
    exact h.shows k job c' hj hc' hpend

theorem Invariant.kill {s : State} (h : Invariant s) : Invariant (next s .kill) := by
  simp only [next]
  split
  · next idx pid foreground hp =>
    have hlater : Later s.processes
        (s.processes.map fun c => if c.pid = pid then c.resume else c) := by
      refine later_map _ fun c => ?_
      split
      · exact ⟨Child.resume_pid, fun hr => Child.report_reaped.not.mp hr⟩
      · exact ⟨rfl, id⟩
    refine h.kept hlater (List.length_map ..) rfl (fun k job hj => ⟨job, hj, rfl⟩)
      (Or.inr ⟨rfl, by rw [hp]; rfl⟩) fun k job d hj hd hpend => ?_
    rw [List.getElem?_map] at hd
    obtain ⟨c, hc, rfl⟩ := Option.map_eq_some_iff.mp hd
    split at hpend
    · next heq =>
      rw [if_pos heq]
      rcases c.resume_cases with hsame | hcont
      · rw [hsame] at hpend ⊢
        exact h.shows k job c hj hc hpend
      · rw [hcont] at hpend
        cases hpend
    · next hne =>
      rw [if_neg hne]
      exact h.shows k job c hj hc hpend
  · exact h

theorem Invariant.assign {s : State} (h : Invariant s) (hk : Kept s .assign) :
    Invariant (next s .assign) := by
  simp only [next]
  split
  · next idx pid foreground hp =>
    simp only [Kept, hp] at hk
    have hz : (if foreground then Phase.waiting pid else .prompt).unrecorded = 0 := by
      split <;> rfl
    refine h.kept (fun k c hc => ⟨c, hc, rfl, id⟩) rfl (JobTable.setState_length ..)
      (fun k job hj => ?_) (Or.inr ⟨hz, by rw [hp]; rfl⟩) fun k job c hj hc hpend => ?_
    · obtain ⟨old, hold, hpid, _⟩ := JobTable.setState_some hj
      exact ⟨old, hold, hpid⟩
    · obtain ⟨old, hold, _, hstate⟩ := JobTable.setState_some hj
      rw [hstate]
      split
      · next hik =>
        subst k
        exact shows_running (hk c hc) hpend
      · exact h.shows k old c hold hc hpend
  · exact h

theorem Invariant.command {s : State} (h : Invariant s) {idx : ℕ} {foreground : Bool}
    (he : Enabled s (.command idx foreground)) : Invariant (next s (.command idx foreground)) := by
  simp only [next]
  split
  · exact h
  · split
    · exact h
    · exact h.kept (fun k c hc => ⟨c, hc, rfl, id⟩) rfl rfl (fun k job hj => ⟨job, hj, rfl⟩)
        (Or.inr ⟨rfl, by rw [he.1]; rfl⟩) h.shows

theorem step_invariant {s : State} (h : Invariant s) {e : Event} (he : Enabled s e)
    (hk : Kept s e) : Invariant (next s e) := by
  cases e with
  | launch pid line => exact h.launch he
  | addJob =>
    obtain ⟨_, _, _, hp⟩ := enabled_addJob he
    exact h.add_entry hp hk
  | command idx foreground => exact h.command he
  | kill => exact h.kill
  | assign => exact h.assign hk
  | wait i => exact h.wait he hk
  | noChild =>
    obtain ⟨pid, hp⟩ := enabled_noChild he
    exact h.kept (fun k c hc => ⟨c, hc, rfl, id⟩) rfl rfl (fun k job hj => ⟨job, hj, rfl⟩)
      (Or.inr ⟨rfl, by rw [hp]; rfl⟩) h.shows
  | handle i => exact h.handle hk
  | change i st => exact h.change he

theorem initial_invariant : Invariant initial := by
  refine ⟨?_, rfl, ?_, ?_, ?_⟩
  · intro i j c d hc
    cases hc
  · intro pid cmd background hp
    cases hp
  · intro k job c hj
    cases hj
  · intro k job c hj
    cases hj

/-- Whenever a run that keeps the condition has the shell at its prompt and no status
unconsumed, the table is right. -/
theorem table_agrees (es : List Event) (h : machine.Valid es) (hk : machine.Along Kept es)
    (hrest : AtRest (machine.run es)) : TableAgrees (machine.run es) := by
  have hi := Machine.invariant_along (I := Invariant) initial_invariant
    (fun _ _ hs he hc => step_invariant hs he hc) h hk
  obtain ⟨hp, hquiet⟩ := hrest
  refine ⟨?_, hi.pids, fun k job c hj hc => hi.shows k job c hj hc ?_⟩
  · have hentries := hi.entries
    rwa [hp] at hentries
  · exact hquiet c (List.mem_of_getElem? hc)

/-- A background job is stopped, continued with `bg`, and ends; the handler takes each status. -/
theorem table_agrees_background :
    TableAgrees (machine.run [.launch 100 (ascii "sleep 9&"), .addJob, .change 0 .stopped,
      .handle 0, .command 0 false, .kill, .handle 0, .assign, .change 0 .exited, .handle 0]) :=
  table_agrees _ (by decide) (by decide) (by decide)

/-- The foreground wait takes the exit status of the job it has just launched: the entry stays
RUNNING. -/
theorem foreground_job_stays_running :
    ¬ ∀ es : List Event, machine.Valid es → AtRest (machine.run es) →
      TableAgrees (machine.run es) := by
  intro hall
  have ht := hall [.launch 100 (ascii "true"), .addJob, .change 0 .exited, .wait 0] (by decide)
    (by decide)
  have hs := ht.shows 0 _ _ rfl rfl
  revert hs
  decide

end JobControlShell
