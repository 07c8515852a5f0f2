import LinuxLabs.PipelineShell

/-! # The process group of a pipeline
Parent and child both ask for the same group, `Stage.group`, which is also what `add_job`
records; a stage gets there unless the group has gone when it asks. -/
namespace PipelineGroups

open Execution PipelineShell
open JobTable (maxJobs)

/-- A stage that has executed its command is in the group its pipeline is recorded under. -/
def InRecordedGroup (s : State) : Prop :=
  ∀ p ∈ s.stages, p.phase = .executing →
    p.pgid = p.group ∧ ∀ job ∈ s.jobs[p.launch]?, job.key = p.pgid

instance (s : State) : Decidable (InRecordedGroup s) := by
  unfold InRecordedGroup
  infer_instance

/-- A child's own `setpgid` finds the group: it is to lead it, or a member is not reaped. -/
def GroupThere (s : State) : Event → Prop
  | .childSetpgid j => ∀ p ∈ s.stages[j]?, p.group = p.child.pid ∨ GroupExists s p.group
  | _ => True

instance (s : State) (e : Event) : Decidable (GroupThere s e) := by
  casesm Event <;> simp only [GroupThere] <;> infer_instance

/-! ## One value of `pgid` for a pipeline -/

/-- The parent's variable `pgid`, inside `execute_pipeline`. -/
def pgidVariable : Phase → Option ℕ
  | .forking _ _ _ pgid => some pgid
  | .grouping _ _ _ _ pgid => some pgid
  | .prompt | .waiting _ | .continuing _ _ _ | .assigning _ _ _ => none

structure Recorded (s : State) : Prop where
  positive : ∀ p ∈ s.stages, 0 < p.group
  bounded : ∀ p ∈ s.stages, p.launch ≤ s.launches
  current : ∀ p ∈ s.stages, p.launch = s.launches → pgidVariable s.phase = some p.group
  newest : ∀ line background commands pid pgid,
    s.phase = .grouping line background commands pid pgid →
    ∀ p ∈ s.stages, p.child.pid = pid → p.child.life ≠ .reaped → p.group = pgid
  entries : s.jobs.length = min s.launches maxJobs
  keys : ∀ p ∈ s.stages, ∀ job ∈ s.jobs[p.launch]?, job.key = p.group

structure Grouped (s : State) : Prop where
  recorded : Recorded s
  joined : ∀ p ∈ s.stages, p.phase ≠ .forked → p.pgid = p.group

/-- Old stages keep what they have, so a step is about the parent's variable and the table. -/
theorem Recorded.follow {s s' : State} (h : Recorded s)
    (hf : ∀ p' ∈ s'.stages, ∃ p ∈ s.stages, Follows p p') (hlaunch : s'.launches = s.launches)
    (hvar : pgidVariable s'.phase = pgidVariable s.phase)
    (hnewest : ∀ line background commands pid pgid,
      s'.phase = .grouping line background commands pid pgid → s'.phase = s.phase)
    (hlen : s'.jobs.length = s.jobs.length)
    (hjobs : ∀ (k : ℕ) (job' : Job), s'.jobs[k]? = some job' →
      ∃ job, s.jobs[k]? = some job ∧ job'.key = job.key) : Recorded s' := by
  constructor
  · intro p' hp'
    obtain ⟨p, hp, hfp⟩ := hf p' hp'
    rw [hfp.group]
    exact h.positive p hp
  · intro p' hp'
    obtain ⟨p, hp, hfp⟩ := hf p' hp'
    rw [hfp.launch, hlaunch]
    exact h.bounded p hp
  · intro p' hp' hl
    obtain ⟨p, hp, hfp⟩ := hf p' hp'
    rw [hvar, hfp.group]
    exact h.current p hp (by rw [← hfp.launch, hl, hlaunch])
  · intro line background commands pid pgid hphase p' hp' hpid hlive
    obtain ⟨p, hp, hfp⟩ := hf p' hp'
    rw [hfp.group]
    have hold := hnewest line background commands pid pgid hphase ▸ hphase
    exact h.newest line background commands pid pgid hold p hp (hfp.pid ▸ hpid) (hfp.alive hlive)
  · rw [hlen, hlaunch]
    exact h.entries
  · intro p' hp' job' hjob'
    obtain ⟨p, hp, hfp⟩ := hf p' hp'
    rw [hfp.launch] at hjob'
    obtain ⟨job, hjob, hkey⟩ := hjobs _ job' hjob'
    rw [hkey, hfp.group]
    exact h.keys p hp job hjob

theorem next_old {s : State} {e : Event} (he : ∀ pid, e ≠ .fork pid) :
    ∀ p' ∈ (next s e).stages, ∃ p ∈ s.stages, Follows p p' := by
  intro p' hp'
  obtain ⟨j, hj, rfl⟩ := List.mem_iff_getElem.mp hp'
  rcases next_stages (List.getElem?_eq_getElem hj) with ⟨p, hp, hf⟩ | ⟨pid, _, _, _, _, _, heq, _⟩
  · exact ⟨p, List.mem_of_getElem? hp, hf⟩
  · exact absurd heq (he pid)

/-- A step outside `execute_pipeline`: the parent's variable has no value before and after it. -/
theorem Recorded.idle {s : State} (h : Recorded s) {e : Event} (he : ∀ pid, e ≠ .fork pid)
    (hlaunch : (next s e).launches = s.launches)
    (hphase : (next s e).phase = s.phase ∨
      pgidVariable (next s e).phase = none ∧ pgidVariable s.phase = none)
    (hlen : (next s e).jobs.length = s.jobs.length)
    (hjobs : ∀ (k : ℕ) (job' : Job), (next s e).jobs[k]? = some job' →
      ∃ job, s.jobs[k]? = some job ∧ job'.key = job.key) : Recorded (next s e) := by
  refine h.follow (next_old he) hlaunch ?_ (fun line background commands pid pgid hg => ?_) hlen
    hjobs
  · rcases hphase with heq | ⟨hn, ho⟩
    · rw [heq]
    · rw [hn, ho]
  · rcases hphase with heq | ⟨hn, _⟩
    · exact heq
    · rw [hg] at hn
      cases hn

theorem Recorded.launch {s : State} (h : Recorded s) {line : List CString.Byte}
    (hp : s.phase = .prompt) : Recorded (next s (.launch line)) := by
  have hnone : ∀ p ∈ s.stages, p.launch ≠ s.launches := by
    intro p hps hl
    have := h.current p hps hl
    rw [hp] at this
    cases this
  simp only [next]
  split
  · refine ⟨h.positive, h.bounded, fun p hps hl => absurd hl (hnone p hps), ?_, h.entries, h.keys⟩
    intro _ _ _ _ _ hg
    cases hg
  · refine ⟨h.positive, h.bounded, fun p hps hl => absurd hl (hnone p hps), ?_, h.entries, h.keys⟩
    intro _ _ _ _ _ hg
    cases hg

theorem Recorded.fork {s : State} (h : Recorded s) {line : List CString.Byte} {background : Bool}
    {command : List CString.Byte} {commands : List (List CString.Byte)} {pid pgid : ℕ}
    (hp : s.phase = .forking line background (command :: commands) pgid) (hfresh : FreshPid s pid) :
    Recorded (next s (.fork pid)) := by
  obtain ⟨hpos, _, hfree⟩ := hfresh
  have hcurrent : ∀ p ∈ s.stages, p.launch = s.launches → p.group = pgid := by
    intro p hps hl
    have := h.current p hps hl
    rw [hp] at this
    exact (Option.some.inj this).symm
  have hnew : (⟨ChildProcess.Child.start pid, s.shellPgid, pgid, .forked, command, s.launches⟩ :
      Stage).group = if pgid = 0 then pid else pgid := by
    by_cases hz : pgid = 0 <;> simp [Stage.group, hz, ChildProcess.Child.start]
  have hnpos : 0 < (if pgid = 0 then pid else pgid) := by
    split
    · exact hpos
    · omega
  have hlen : s.jobs.length ≤ s.launches := by
    rw [h.entries]
    exact min_le_left _ _
  simp only [next, hp]
  constructor
  · intro p hps
    rcases List.mem_append.mp hps with hps | hps
    · exact h.positive p hps
    · rw [List.mem_singleton.mp hps, hnew]
      exact hnpos
  · intro p hps
    rcases List.mem_append.mp hps with hps | hps
    · exact h.bounded p hps
    · rw [List.mem_singleton.mp hps]
  · intro p hps hl
    rcases List.mem_append.mp hps with hps | hps
    · -- a stage of this pipeline is there already, so the variable has its value
      have hg := hcurrent p hps hl
      have hne : pgid ≠ 0 := by
        have := h.positive p hps
        omega
      rw [pgidVariable, if_neg hne, hg]
    · rw [List.mem_singleton.mp hps, hnew]
      rfl
  · intro _ _ _ pid' pgid' hg p hps hpid hlive
    cases hg
    rcases List.mem_append.mp hps with hps | hps
    · exact absurd hpid (hfree p hps hlive).1
    · rw [List.mem_singleton.mp hps, hnew]
  · exact h.entries
  · intro p hps job hj
    rcases List.mem_append.mp hps with hps | hps
    · exact h.keys p hps job hj
    · rw [List.mem_singleton.mp hps] at hj
      have hlt := (List.getElem?_eq_some_iff.mp hj).1
      change s.launches < s.jobs.length at hlt
      omega

theorem Recorded.add_entry {s : State} (h : Recorded s) {line : List CString.Byte}
    {background : Bool} {pgid : ℕ} (hp : s.phase = .forking line background [] pgid) :
    Recorded (next s .addJob) := by
  have hentries := h.entries
  have hvar : pgidVariable (if background then Phase.prompt else .waiting pgid) = none := by
    split <;> rfl
  have hlength : (addJob s.jobs pgid line .running).length = min (s.launches + 1) maxJobs := by
    simp only [addJob, JobTable.add]
    split
    · rw [List.length_append, List.length_singleton]
      omega
    · omega
  simp only [next, hp]
  constructor
  · exact h.positive
  · exact fun p hps => Nat.le_succ_of_le (h.bounded p hps)
  · intro p hps hl
    have := h.bounded p hps
    change p.launch = s.launches + 1 at hl
    omega
  · intro _ _ _ _ _ hg
    change (if background then Phase.prompt else .waiting (pgid : ℤ)) = _ at hg
    rw [hg] at hvar
    cases hvar
  · exact hlength
  · intro p hps job hj
    change (addJob s.jobs pgid line .running)[p.launch]? = some job at hj
    simp only [addJob, JobTable.add] at hj
    split at hj
    · rcases KeyedTable.append_some hj with hj | ⟨hk, rfl⟩
      · exact h.keys p hps job hj
      · have hcur := h.current p hps (by omega)
        rw [hp] at hcur
        cases hcur
        rfl
    · exact h.keys p hps job hj

theorem Recorded.handle {s : State} (h : Recorded s) (j : ℕ) : Recorded (next s (.handle j)) := by
  cases hp : s.stages[j]? with
  | none =>
    have hstay : next s (.handle j) = s := by simp only [next, hp]
    rw [hstay]
    exact h
  | some p =>
    cases hst : p.child.pending with
    | none =>
      have hstay : next s (.handle j) = s := by simp only [next, hp, hst]
      rw [hstay]
      exact h
    | some st =>
      have hnext : next s (.handle j) = { s with
          stages := s.stages.modify j Stage.consume
          jobs := sigchldHandler (s.stages.modify j Stage.consume) s.jobs p.child.pid st } := by
        simp only [next, hp, hst]
      refine h.idle (by simp) (by rw [hnext]) (Or.inl (by rw [hnext])) ?_ ?_
      · rw [hnext]
        exact JobTable.record_length ..
      · rw [hnext]
        intro k job' hj
        obtain ⟨old, hold, hkey, _⟩ := JobTable.record_some hj
        exact ⟨old, hold, hkey⟩

theorem Recorded.assign {s : State} (h : Recorded s) {idx : ℕ} {pgid : ℤ} {foreground : Bool}
    (hp : s.phase = .assigning idx pgid foreground) : Recorded (next s .assign) := by
  have hnext : next s .assign = { s with
      jobs := JobTable.setState s.jobs idx .running
      phase := if foreground then .waiting pgid else .prompt } := by simp only [next, hp]
  refine h.idle (by simp) (by rw [hnext]) (Or.inr ⟨?_, by rw [hp]; rfl⟩) ?_ ?_
  · rw [hnext]
    dsimp only
    split <;> rfl
  · rw [hnext]
    exact JobTable.setState_length ..
  · rw [hnext]
    intro k job' hj
    obtain ⟨old, hold, hkey, _⟩ := JobTable.setState_some hj
    exact ⟨old, hold, hkey⟩

/-- `fg` and `bg` read the table, and the number they look up is not the parent's variable. -/
theorem Recorded.command {s : State} (h : Recorded s) {idx : ℕ} {foreground : Bool}
    (hp : s.phase = .prompt) : Recorded (next s (.command idx foreground)) := by
  have hnext : (next s (.command idx foreground)).launches = s.launches ∧
      (next s (.command idx foreground)).jobs = s.jobs ∧
      pgidVariable (next s (.command idx foreground)).phase = none := by
    simp only [next]
    split
    · exact ⟨rfl, rfl, by rw [hp]; rfl⟩
    · split
      · exact ⟨rfl, rfl, by rw [hp]; rfl⟩
      · exact ⟨rfl, rfl, rfl⟩
  obtain ⟨hlaunches, hjobs, hvar⟩ := hnext
  refine h.idle (by simp) hlaunches (Or.inr ⟨hvar, by rw [hp]; rfl⟩) (by rw [hjobs]) ?_
  rw [hjobs]
  exact fun k job' hj => ⟨job', hj, rfl⟩

theorem step_recorded {s : State} (h : Recorded s) {e : Event} (he : Enabled s e) :
    Recorded (next s e) := by
  have hsame : ∀ (k : ℕ) (job' : Job), s.jobs[k]? = some job' →
      ∃ job, s.jobs[k]? = some job ∧ job'.key = job.key := fun k job' hj => ⟨job', hj, rfl⟩
  cases e with
  | launch line => exact h.launch he.1
  | fork pid =>
    obtain ⟨_, _, _, _, _, hp, hfresh⟩ := enabled_fork he
    exact h.fork hp hfresh
  | forkFailed =>
    obtain ⟨line, background, command, commands, pgid, hp⟩ := enabled_forkFailed he
    refine h.follow (next_old (by simp)) (by simp [next, hp]) (by simp [next, hp, pgidVariable])
      (by simp [next, hp]) (by simp [next, hp]) (by simp only [next, hp]; exact hsame)
  | parentSetpgid =>
    obtain ⟨line, background, commands, pid, pgid, hp⟩ := enabled_parentSetpgid he
    refine h.follow (next_old (by simp)) (by simp [next, hp]) (by simp [next, hp, pgidVariable])
      (by simp [next, hp]) (by simp [next, hp]) (by simp only [next, hp]; exact hsame)
  | addJob =>
    obtain ⟨_, _, _, hp⟩ := enabled_addJob he
    exact h.add_entry hp
  | childSetpgid j => exact h.idle (by simp) rfl (Or.inl rfl) rfl hsame
  | exec j => exact h.idle (by simp) rfl (Or.inl rfl) rfl hsame
  | change j st => exact h.idle (by simp) rfl (Or.inl rfl) rfl hsame
  | handle j => exact h.handle j
  | wait j =>
    obtain ⟨pgid, hp, -⟩ := enabled_wait he
    exact h.idle (by simp) rfl (Or.inr ⟨rfl, by rw [hp]; rfl⟩) rfl hsame
  | noChild =>
    obtain ⟨pgid, hp, -⟩ := enabled_noChild he
    exact h.idle (by simp) rfl (Or.inr ⟨rfl, by rw [hp]; rfl⟩) rfl hsame
  | command idx foreground => exact h.command he.1
  | kill =>
    obtain ⟨idx, pgid, foreground, hp⟩ := enabled_kill he
    refine h.idle (by simp) (by simp [next, hp]) (Or.inr ⟨by simp [next, hp, pgidVariable], ?_⟩)
      (by simp [next, hp]) (by simp only [next, hp]; exact hsame)
    rw [hp]
    rfl
  | assign =>
    obtain ⟨_, _, _, hp⟩ := enabled_assign he
    exact h.assign hp

/-! ## Every stage joins the group before it executes -/

def Joined (p : Stage) : Prop := p.phase ≠ .forked → p.pgid = p.group

theorem joined_same {p p' : Stage} (h : Joined p) (hf : Follows p p') (hpgid : p'.pgid = p.pgid)
    (hphase : p'.phase = p.phase) : Joined p' := by
  intro hp
  rw [hpgid, hf.group]
  exact h (hphase ▸ hp)

theorem joined_consume {stages : List Stage} (h : ∀ p ∈ stages, Joined p) (j : ℕ) :
    ∀ p ∈ stages.modify j Stage.consume, Joined p :=
  KeyedTable.forall_modify h fun p _ hp => joined_same hp (follows_consume p) rfl rfl

theorem joined_setpgid (s : State) {p : Stage} (h : Joined p) {pgid : ℕ} (hg : p.group = pgid) :
    Joined (setpgid s p pgid) := by
  intro hforked
  rw [(follows_setpgid s p pgid).group]
  unfold setpgid at hforked ⊢
  split
  · exact hg.symm
  · next hfail =>
    rw [if_neg hfail] at hforked
    exact h hforked

theorem step_joined {s : State} (hr : Recorded s) (h : ∀ p ∈ s.stages, Joined p) {e : Event}
    (he : Enabled s e) (hg : GroupThere s e) : ∀ p ∈ (next s e).stages, Joined p := by
  cases e with
  | launch line =>
    simp only [next]
    split <;> exact h
  | fork pid =>
    simp only [next]
    split
    · intro p hp
      rcases List.mem_append.mp hp with hp | hp
      · exact h p hp
      · rw [List.mem_singleton.mp hp]
        exact fun hphase => absurd rfl hphase
    · exact h
  | forkFailed | addJob | assign =>
    simp only [next]
    split <;> exact h
  | parentSetpgid =>
    simp only [next]
    split
    · next line background commands pid pgid hphase =>
      intro p' hp'
      obtain ⟨p, hp, rfl⟩ := List.mem_map.mp hp'
      split
      · next hmove =>
        exact joined_setpgid s (h p hp) (hr.newest _ _ _ _ _ hphase p hp hmove.1 hmove.2.1)
      · exact h p hp
    · exact h
  | childSetpgid j =>
    refine KeyedTable.forall_modify h fun p hp _ _ => ?_
    have hf : Follows p { setpgid s p p.group with phase := .grouped } := by
      have := follows_setpgid s p p.group
      exact ⟨this.pid, this.alive, this.forkPgid, this.launch⟩
    rw [hf.group]
    change (setpgid s p p.group).pgid = p.group
    rw [setpgid, if_pos (hg p hp)]
  | exec j =>
    obtain ⟨q, hq, hgrouped, _⟩ := he
    refine KeyedTable.forall_modify h fun p hp hjoined _ => ?_
    obtain rfl := Option.some.inj (Eq.trans (Eq.symm hp) hq)
    exact hjoined (by rw [hgrouped]; simp)
  | change j st =>
    exact KeyedTable.forall_modify h fun p _ hp => joined_same hp (follows_report p st) rfl rfl
  | handle j =>
    simp only [next]
    split
    · exact h
    · split
      · exact h
      · exact joined_consume h j
  | wait j => exact joined_consume h j
  | noChild => exact h
  | command idx foreground =>
    simp only [next]
    split
    · exact h
    · split <;> exact h
  | kill =>
    simp only [next]
    split
    · intro p' hp'
      obtain ⟨p, hp, rfl⟩ := List.mem_map.mp hp'
      split
      · exact joined_same (h p hp) (follows_report p .continued) rfl rfl
      · exact h p hp
    · exact h

theorem initial_grouped (shellPgid : ℕ) : Grouped (initial shellPgid) := by
  constructor
  · constructor
    · intro p hp
      cases hp
    · intro p hp
      cases hp
    · intro p hp
      cases hp
    · intro line background commands pid pgid hg
      cases hg
    · rfl
    · intro p hp
      cases hp
  · intro p hp
    cases hp

/-- In a run whose children all find the group they ask for, every stage executes its command
in the group its pipeline is recorded under. -/
theorem executing_in_recorded_group (shellPgid : ℕ) (es : List Event)
    (h : (machine shellPgid).Valid es) (hg : (machine shellPgid).Along GroupThere es) :
    InRecordedGroup ((machine shellPgid).run es) := by
  have hi := Machine.invariant_along (I := Grouped) (initial_grouped shellPgid)
    (fun _ _ hs he hc =>
      ⟨step_recorded hs.recorded he, step_joined hs.recorded hs.joined he hc⟩) h hg
  intro p hp hexec
  have hpgid := hi.joined p hp (by rw [hexec]; simp)
  refine ⟨hpgid, fun job hjob => ?_⟩
  rw [hi.recorded.keys p hp job hjob, hpgid]

/-- Two stages, the second forked while the first is a zombie. -/
theorem two_stages_in_group :
    InRecordedGroup ((machine 50).run [.launch (CString.ascii "a|b&"), .fork 100, .childSetpgid 0,
      .exec 0, .parentSetpgid, .change 0 .exited, .fork 101, .childSetpgid 1, .exec 1,
      .parentSetpgid, .handle 0, .addJob]) :=
  executing_in_recorded_group 50 _ (by decide) (by decide)

/-- The first stage ends and is reaped before the second is forked: the second finds no group
and executes in the shell's. -/
theorem late_stage_left_in_shell_group :
    ¬ ∀ es, (machine 50).Valid es → InRecordedGroup ((machine 50).run es) := by
  intro hall
  have hi := hall [.launch (CString.ascii "a|b&"), .fork 100, .childSetpgid 0, .parentSetpgid,
    .exec 0, .change 0 .exited, .handle 0, .fork 101, .parentSetpgid, .childSetpgid 1, .exec 1]
    (by decide)
  revert hi
  decide

end PipelineGroups
