import LinuxLabs.PipelineGroups
import Mathlib.Data.Fintype.EquivFin

/-! # When the pipeline shell returns from a foreground job
One `waitpid` on the group ends the wait, whichever stage it is about: nothing else stands
between it and the shell taking the terminal back. -/
namespace PipelineForeground

open Execution ChildProcess PipelineShell PipelineGroups
open CString (Byte)
open JobTable (isBuiltin isBackground)

/-- The shell, and the pipeline that `execute_pipeline` or `bring_to_foreground` is about. -/
structure Tracked where
  shell : State
  job : ℕ

/-- Entry `idx` of the table is the one of pipeline `idx`. -/
def track (t : Tracked) : Event → ℕ
  | .addJob => t.shell.launches
  | .command idx _ => idx
  | _ => t.job

def machine (shellPgid : ℕ) : Machine Tracked Event where
  initial := ⟨initial shellPgid, 0⟩
  Enabled t e := Enabled t.shell e
  next t e := ⟨next t.shell e, track t e⟩

/-- When the foreground wait is over, every stage of the job has terminated or is stopped. -/
def Completed (t : Tracked) (e : Event) : Prop :=
  match e with
  | .wait _ | .noChild =>
    ∀ p ∈ (next t.shell e).stages, p.launch = t.job → p.child.life ≠ .running
  | _ => True

/-- The status that ends the wait is the one of the last stage of the job that was running; when
there is none to wait for, no running stage is outside the group. -/
def LastLeft (t : Tracked) : Event → Prop
  | .wait j => ∀ (i : ℕ) (p : Stage), t.shell.stages[i]? = some p → i ≠ j → p.launch = t.job →
    p.child.life ≠ .running
  | .noChild => ∀ p ∈ t.shell.stages, p.launch = t.job → p.child.life = .running →
    ∃ pgid, t.shell.phase = .waiting pgid ∧ InGroup t.shell pgid p
  | _ => True

/-- The commands `execute_pipeline` finds in a line that `main` passes to it. -/
def commands (line : List Byte) : List (List Byte) :=
  parsePipeline (if isBackground line then line.dropLast else line)

/-- The lines typed in are from `lines`. -/
def Types (lines : Set (List Byte)) : Event → Prop
  | .launch line => line ∈ lines
  | _ => True

instance (t : Tracked) (e : Event) : Decidable (Completed t e) := by
  casesm Event <;> simp only [Completed] <;> infer_instance

instance (shellPgid : ℕ) (t : Tracked) (e : Event) :
    Decidable ((machine shellPgid).Enabled t e) := inferInstanceAs (Decidable (Enabled t.shell e))

/-! ## One `waitpid` -/

variable {t : Tracked} {s : State} {e : Event}

/-- The stage whose status is taken has stopped or ended. -/
theorem consume_not_running {p : Stage}
    (h : p.child.pending = some .stopped ∨ p.child.pending = some .exited) :
    p.consume.child.life ≠ .running := by
  rw [Stage.consume]
  rcases h with h | h <;> rw [Child.consume_life h] <;> simp [Status.life]

theorem completed_iff_lastLeft (he : Enabled t.shell e) : Completed t e ↔ LastLeft t e := by
  cases e with
  | wait j =>
    have hj : ∀ p, t.shell.stages[j]? = some p →
        p.child.pending = some .stopped ∨ p.child.pending = some .exited := by
      intro p hp
      obtain ⟨_, -, q, hq, -, hpending⟩ := enabled_wait he
      obtain rfl := Option.some.inj (hp.symm.trans hq)
      exact hpending
    constructor
    · intro hc i p hp hij hl
      have hmem : p ∈ (next t.shell (.wait j)).stages := by
        refine List.mem_of_getElem? (i := i) ?_
        rw [next, List.getElem?_modify_ne _ _ (Ne.symm hij), hp]
      exact hc p hmem hl
    · intro hl p' hp' hjob
      obtain ⟨i, p, hp, rfl⟩ := KeyedTable.mem_modify hp'
      by_cases hji : j = i
      · rw [if_pos hji]
        exact consume_not_running (hj p (hji ▸ hp))
      · rw [if_neg hji] at hjob ⊢
        exact hl i p hp (Ne.symm hji) hjob
  | noChild =>
    obtain ⟨pgid, hphase, hnone⟩ := enabled_noChild he
    constructor
    · intro hc p hp hl hrun
      exact absurd hrun (hc p hp hl)
    · intro hl p hp hjob hrun
      obtain ⟨pgid', hphase', hin⟩ := hl p hp hjob hrun
      obtain rfl := Phase.waiting.inj (hphase.symm.trans hphase')
      exact hnone p hp (by rw [hrun]; simp) hin
  | _ => exact Iff.rfl

/-! ## Pipelines of one stage -/

/-- The child whose group the parent is about to set. -/
def turn : Phase → Option ℕ
  | .grouping _ _ _ pid _ => some pid
  | _ => none

/-- A stage that leads its own group, once it or the parent has asked for it. -/
structure Alone (next : Option ℕ) (p : Stage) : Prop where
  own : p.forkPgid = 0
  joined : p.phase ≠ .forked → p.pgid = p.child.pid
  settled : p.child.life ≠ .reaped → p.pgid = p.child.pid ∨ next = some p.child.pid

def AloneInLoop : Phase → Prop
  | .forking _ _ commands pgid => commands.length ≤ 1 ∧ (commands ≠ [] → pgid = 0)
  | .grouping _ _ commands pid pgid => commands = [] ∧ pgid = pid
  | _ => True

structure OneStage (s : State) : Prop where
  stages : ∀ p ∈ s.stages, Alone (turn s.phase) p
  loop : AloneInLoop s.phase

variable {turn' : Option ℕ} {p p' : Stage}

theorem Alone.group (h : Alone turn' p) : p.group = p.child.pid := by
  rw [Stage.group, h.own]
  simp

theorem Alone.follow (h : Alone turn' p) (hf : Follows p p') (hpgid : p'.pgid = p.pgid)
    (hphase : p'.phase ≠ .forked → p.phase ≠ .forked) : Alone turn' p' := by
  refine ⟨hf.forkPgid.trans h.own, fun hp => ?_, fun hlive => ?_⟩
  · rw [hpgid, hf.pid]
    exact h.joined (hphase hp)
  · rw [hpgid, hf.pid]
    exact h.settled (hf.alive hlive)

theorem Alone.led (own : p.forkPgid = 0) (h : p.pgid = p.child.pid) : Alone turn' p :=
  ⟨own, fun _ => h, fun _ => Or.inl h⟩

theorem alone_consume {stages : List Stage} (h : ∀ p ∈ stages, Alone turn' p) (j : ℕ) :
    ∀ p ∈ stages.modify j Stage.consume, Alone turn' p :=
  KeyedTable.forall_modify h fun p _ hp => hp.follow (follows_consume p) rfl id

theorem OneStage.fork (h : OneStage s) {pid : ℕ} (he : Enabled s (.fork pid)) :
    OneStage (next s (.fork pid)) := by
  obtain ⟨line, background, command, commands, pgid, hp, -⟩ := enabled_fork he
  have hloop := h.loop
  rw [hp, AloneInLoop, List.length_cons] at hloop
  obtain ⟨hlength, hpgid⟩ := hloop
  obtain rfl : pgid = 0 := hpgid (by simp)
  obtain rfl : commands = [] := List.eq_nil_of_length_eq_zero (by omega)
  simp only [next, hp]
  refine ⟨fun p hmem => ?_, rfl, rfl⟩
  rcases List.mem_append.mp hmem with hmem | hmem
  · have hold := h.stages p hmem
    refine ⟨hold.own, hold.joined, fun hlive => Or.inl ((hold.settled hlive).resolve_right ?_)⟩
    simp [turn, hp]
  · rw [List.mem_singleton.mp hmem]
    exact ⟨rfl, fun hphase => absurd rfl hphase, fun _ => Or.inr rfl⟩

theorem OneStage.parentSetpgid (h : OneStage s) (he : Enabled s .parentSetpgid) :
    OneStage (next s .parentSetpgid) := by
  obtain ⟨line, background, commands, pid, pgid, hp⟩ := enabled_parentSetpgid he
  have hloop := h.loop
  rw [hp, AloneInLoop] at hloop
  obtain ⟨rfl, rfl⟩ := hloop
  simp only [next, hp]
  refine ⟨fun p' hp' => ?_, Nat.zero_le _, fun hne => absurd rfl hne⟩
  obtain ⟨p, hmem, rfl⟩ := List.mem_map.mp hp'
  have hold := h.stages p hmem
  split
  · next hmove =>
    obtain ⟨rfl, -, -⟩ := hmove
    rw [setpgid, if_pos (Or.inl rfl)]
    exact .led hold.own rfl
  · next hstay =>
    refine ⟨hold.own, hold.joined, fun hlive => Or.inl ?_⟩
    by_cases hpid : p.child.pid = pgid
    · -- the child has executed its command, so it has asked for the group before
      have hexec : p.phase = .executing := by
        by_contra hne
        exact hstay ⟨hpid, hlive, hne⟩
      exact hold.joined (by rw [hexec]; simp)
    · refine (hold.settled hlive).resolve_right fun hturn => hpid ?_
      rw [hp] at hturn
      exact (Option.some.inj hturn).symm

/-- The main program goes on outside `fork` and `setpgid`; the stages are as they were. -/
theorem OneStage.move (h : OneStage s) {s' : State} (hstages : s'.stages = s.stages)
    (hturn : turn s'.phase = turn s.phase) (hloop : AloneInLoop s'.phase) : OneStage s' :=
  ⟨fun p hp => hturn ▸ h.stages p (hstages ▸ hp), hloop⟩

theorem step_oneStage (h : OneStage s) (he : Enabled s e)
    (hline : ∀ line, e = .launch line → (commands line).length ≤ 1) : OneStage (next s e) := by
  cases e with
  | launch line =>
    have hp := he.1
    have hlength := hline line rfl
    simp only [commands] at hlength
    simp only [next]
    split
    · next hb =>
      rw [if_pos hb] at hlength
      exact h.move rfl (by rw [hp]; rfl) ⟨hlength, fun _ => rfl⟩
    · next hb =>
      rw [if_neg hb] at hlength
      exact h.move rfl (by rw [hp]; rfl) ⟨hlength, fun _ => rfl⟩
  | fork pid => exact h.fork he
  | forkFailed =>
    obtain ⟨line, background, command, commands, pgid, hp⟩ := enabled_forkFailed he
    have hloop := h.loop
    rw [hp, AloneInLoop, List.length_cons] at hloop
    have hnil : commands = [] := List.eq_nil_of_length_eq_zero (by omega)
    simp only [next, hp]
    refine h.move rfl (by rw [hp]; rfl) ⟨?_, fun hne => absurd hnil hne⟩
    rw [hnil]
    exact Nat.zero_le _
  | parentSetpgid => exact h.parentSetpgid he
  | addJob =>
    obtain ⟨_, _, _, hp⟩ := enabled_addJob he
    simp only [next, hp]
    refine h.move rfl ?_ ?_ <;> dsimp only <;> split <;> simp [turn, hp, AloneInLoop]
  | childSetpgid j =>
    refine ⟨KeyedTable.forall_modify h.stages fun p _ hp => ?_, h.loop⟩
    refine .led ?_ ?_
    · exact (follows_setpgid s p p.group).forkPgid.trans hp.own
    · change (setpgid s p p.group).pgid = (setpgid s p p.group).child.pid
      rw [hp.group, setpgid, if_pos (Or.inl rfl)]
  | exec j =>
    obtain ⟨q, hq, hgrouped, -⟩ := he
    refine ⟨KeyedTable.forall_modify h.stages fun p hp halone => ?_, h.loop⟩
    obtain rfl := Option.some.inj (hp.symm.trans hq)
    exact .led halone.own (halone.joined (by rw [hgrouped]; simp))
  | change j st =>
    refine ⟨KeyedTable.forall_modify h.stages fun p _ hp => ?_, h.loop⟩
    exact hp.follow (follows_report p st) rfl id
  | handle j =>
    simp only [next]
    split
    · exact h
    · split
      · exact h
      · exact ⟨alone_consume h.stages j, h.loop⟩
  | wait j =>
    obtain ⟨_, hp, -⟩ := enabled_wait he
    have hturn : turn s.phase = turn .prompt := by rw [hp]; rfl
    have hs : ∀ p ∈ s.stages, Alone (turn .prompt) p := hturn ▸ h.stages
    exact ⟨alone_consume hs j, trivial⟩
  | noChild =>
    obtain ⟨_, hp, -⟩ := enabled_noChild he
    exact h.move rfl (by rw [hp]; rfl) trivial
  | command idx foreground =>
    simp only [next]
    split
    · exact h
    · split
      · exact h
      · exact h.move rfl (by rw [he.1]; rfl) trivial
  | kill =>
    obtain ⟨idx, pgid, foreground, hp⟩ := enabled_kill he
    have hturn : turn s.phase = turn (.assigning idx pgid foreground) := by rw [hp]; rfl
    have hs : ∀ p ∈ s.stages, Alone (turn (.assigning idx pgid foreground)) p :=
      hturn ▸ h.stages
    simp only [next, hp]
    refine ⟨fun p' hp' => ?_, trivial⟩
    obtain ⟨p, hmem, rfl⟩ := List.mem_map.mp hp'
    split
    · exact (hs p hmem).follow (follows_report p .continued) rfl id
    · exact hs p hmem
  | assign =>
    obtain ⟨_, _, _, hp⟩ := enabled_assign he
    simp only [next, hp]
    refine h.move rfl ?_ ?_ <;> dsimp only <;> split <;> simp [turn, hp, AloneInLoop]

/-! ## The group the shell waits for -/

/-- The number `waitpid` and `kill` get, once the job is known. -/
def aim : Phase → Option ℤ
  | .waiting pgid => some pgid
  | .continuing _ pgid _ => some pgid
  | .assigning _ pgid _ => some pgid
  | _ => none

structure Aimed (t : Tracked) : Prop where
  recorded : Recorded t.shell
  distinct : Distinct t.shell
  group : ∀ pgid ∈ aim t.shell.phase, ∀ p ∈ t.shell.stages, p.launch = t.job →
    (p.group : ℤ) = pgid

/-- No group is aimed at in the new state, or the job and the number are as they were. -/
theorem Aimed.keep (h : Aimed t) (he : Enabled t.shell e) (hfork : ∀ pid, e ≠ .fork pid)
    (haim : aim (next t.shell e).phase = none ∨
      aim (next t.shell e).phase = aim t.shell.phase ∧ track t e = t.job) :
    Aimed ⟨next t.shell e, track t e⟩ := by
  refine ⟨step_recorded h.recorded he, step_distinct h.distinct he, fun pgid hpgid p' hp' hl => ?_⟩
  rcases haim with hnone | ⟨hsame, hjob⟩
  · rw [hnone] at hpgid
    cases hpgid
  · obtain ⟨p, hp, hf⟩ := next_old hfork p' hp'
    rw [hf.group]
    exact h.group pgid (hsame ▸ hpgid) p hp (by rw [← hf.launch, hl, hjob])

theorem Aimed.add_entry (h : Aimed t) (he : Enabled t.shell .addJob) :
    Aimed ⟨next t.shell .addJob, t.shell.launches⟩ := by
  refine ⟨step_recorded h.recorded he, step_distinct h.distinct he, ?_⟩
  obtain ⟨line, background, pgid, hp⟩ := enabled_addJob he
  simp only [next, hp]
  intro pgid' hpgid p hps hl
  have hcurrent := h.recorded.current p hps hl
  rw [hp] at hcurrent
  cases background with
  | true => cases hpgid
  | false =>
    cases hpgid
    exact congrArg Nat.cast (Option.some.inj hcurrent).symm

theorem Aimed.command (h : Aimed t) {idx : ℕ} {foreground : Bool}
    (he : Enabled t.shell (.command idx foreground)) :
    Aimed ⟨next t.shell (.command idx foreground), idx⟩ := by
  have hnone : aim t.shell.phase = none := by rw [he.1]; rfl
  refine ⟨step_recorded h.recorded he, step_distinct h.distinct he, ?_⟩
  simp only [next]
  split
  · intro pgid hpgid
    rw [hnone] at hpgid
    cases hpgid
  · next job hjob =>
    split
    · intro pgid hpgid
      rw [hnone] at hpgid
      cases hpgid
    · intro pgid hpgid p hp hl
      cases hpgid
      exact (h.recorded.keys p hp job (by rw [hl, hjob]; rfl)).symm

theorem step_aimed (h : Aimed t) (he : Enabled t.shell e) : Aimed ⟨next t.shell e, track t e⟩ := by
  have hkeep := h.keep he
  cases e with
  | launch line =>
    refine hkeep (by simp) (Or.inl ?_)
    simp only [next]
    split <;> rfl
  | fork pid =>
    refine ⟨step_recorded h.recorded he, step_distinct h.distinct he, ?_⟩
    obtain ⟨_, _, _, _, _, hp, -⟩ := enabled_fork he
    simp only [next, hp]
    intro pgid hpgid
    cases hpgid
  | forkFailed =>
    obtain ⟨_, _, _, _, _, hp⟩ := enabled_forkFailed he
    exact hkeep (by simp) (Or.inl (by simp only [next, hp]; rfl))
  | parentSetpgid =>
    obtain ⟨_, _, _, _, _, hp⟩ := enabled_parentSetpgid he
    exact hkeep (by simp) (Or.inl (by simp only [next, hp]; rfl))
  | addJob => exact h.add_entry he
  | childSetpgid j | exec j | change j st => exact hkeep (by simp) (Or.inr ⟨rfl, rfl⟩)
  | handle j =>
    refine hkeep (by simp) (Or.inr ⟨?_, rfl⟩)
    simp only [next]
    split
    · rfl
    · split <;> rfl
  | wait j | noChild => exact hkeep (by simp) (Or.inl rfl)
  | command idx foreground => exact h.command he
  | kill =>
    obtain ⟨_, _, _, hp⟩ := enabled_kill he
    exact hkeep (by simp) (Or.inr ⟨by simp only [next, hp]; rfl, rfl⟩)
  | assign =>
    obtain ⟨idx, pgid, foreground, hp⟩ := enabled_assign he
    cases foreground with
    | true => exact hkeep (by simp) (Or.inr ⟨by simp only [next, hp]; rfl, rfl⟩)
    | false => exact hkeep (by simp) (Or.inl (by simp only [next, hp]; rfl))

theorem initial_aimed (shellPgid : ℕ) : Aimed (machine shellPgid).initial := by
  refine ⟨(initial_grouped shellPgid).recorded, fun i j c d hc => ?_, fun pgid hpgid => ?_⟩
  · cases hc
  · cases hpgid

/-- While the shell waits, every process of the session leads its group. -/
theorem OneStage.leads (ho : OneStage s) {pgid : ℤ} (hphase : s.phase = .waiting pgid)
    (hp : p ∈ s.stages) (hlive : p.child.life ≠ .reaped) : p.pgid = p.child.pid := by
  refine ((ho.stages p hp).settled hlive).resolve_right ?_
  rw [hphase]
  exact fun hn => nomatch hn

/-- The group waited for is the one that the stage of the job leads. -/
theorem Aimed.inGroup_iff (h : Aimed t) (ho : OneStage t.shell) {pgid : ℤ}
    (hphase : t.shell.phase = .waiting pgid) (hp : p ∈ t.shell.stages) (hl : p.launch = t.job)
    (q : Stage) : InGroup t.shell pgid q ↔ q.pgid = p.child.pid := by
  have hgroup := h.group pgid (by rw [hphase]; rfl) p hp hl
  have hpos := h.recorded.positive p hp
  have hne : pgid ≠ 0 := by omega
  rw [InGroup, if_neg hne, ← hgroup, (ho.stages p hp).group, Int.ofNat_inj]

/-- The only stage of a job is the one whose status `waitpid` takes. -/
theorem lastLeft_of_oneStage (h : Aimed t) (ho : OneStage t.shell) (he : Enabled t.shell e) :
    LastLeft t e := by
  cases e with
  | wait j =>
    intro i p hp hij hl hrun
    obtain ⟨pgid, hphase, q, hq, hin, hpending⟩ := enabled_wait he
    have hlive : q.child.life ≠ .reaped := by
      intro hr
      rw [Child.pending_of_reaped hr] at hpending
      rcases hpending with hn | hn <;> cases hn
    have hown := ho.leads hphase (List.mem_of_getElem? hq) hlive
    have hsame := (h.inGroup_iff ho hphase (List.mem_of_getElem? hp) hl q).mp hin
    have hpid : p.child.pid = q.child.pid := hsame.symm.trans hown
    refine hij (h.distinct i j p.child q.child ?_ ?_ (by rw [hrun]; simp) hlive hpid)
    · rw [List.getElem?_map, hp]
      rfl
    · rw [List.getElem?_map, Option.mem_def.mp hq]
      rfl
  | noChild =>
    intro p hp hl hrun
    obtain ⟨pgid, hphase, -⟩ := enabled_noChild he
    refine ⟨pgid, hphase, (h.inGroup_iff ho hphase hp hl p).mpr ?_⟩
    exact ho.leads hphase hp (by rw [hrun]; simp)
  | _ => trivial

theorem completed_of_oneStage {shellPgid : ℕ} {lines : Set (List Byte)}
    (hlines : ∀ line ∈ lines, line ≠ [] → isBuiltin line = false → (commands line).length ≤ 1)
    {es : List Event} (h : (machine shellPgid).Valid es)
    (htypes : (machine shellPgid).Along (fun _ e => Types lines e) es) :
    (machine shellPgid).Along Completed es := by
  refine Machine.along_of_invariant (I := fun t => Aimed t ∧ OneStage t.shell) ?_ ?_ ?_ h htypes
  · refine ⟨initial_aimed shellPgid, fun p hp => ?_, trivial⟩
    cases hp
  · rintro t e ⟨ha, ho⟩ he htype
    refine ⟨step_aimed ha he, step_oneStage ho he ?_⟩
    rintro line rfl
    exact hlines line htype he.2.1 he.2.2
  · rintro t e ⟨ha, ho⟩ he
    exact (completed_iff_lastLeft he).mpr (lastLeft_of_oneStage ha ho he)

/-! ## Pipelines of two stages or more -/

/-- A state of a run with lines from `lines`. -/
def Reached (shellPgid : ℕ) (lines : Set (List Byte)) (t : Tracked) : Prop :=
  ∃ es, (machine shellPgid).Valid es ∧ (machine shellPgid).Along (fun _ e => Types lines e) es ∧
    (machine shellPgid).run es = t

section

variable {shellPgid : ℕ} {lines : Set (List Byte)} {line : List Byte} {background : Bool}
  {pgid : ℕ}

theorem Reached.step (h : Reached shellPgid lines t) (he : Enabled t.shell e)
    (htype : Types lines e) : Reached shellPgid lines ⟨next t.shell e, track t e⟩ := by
  obtain ⟨es, hv, htypes, rfl⟩ := h
  refine ⟨es ++ [e], (Machine.valid_concat es e).mpr ⟨hv, he⟩,
    (Machine.along_concat es e).mpr ⟨htypes, htype⟩, ?_⟩
  rw [Machine.run_concat]
  rfl

theorem exists_fresh (s : State) : ∃ pid, FreshPid s pid := by
  let taken := {0, s.shellPgid} ∪ (s.stages.map fun p => p.child.pid).toFinset ∪
    (s.stages.map Stage.pgid).toFinset
  obtain ⟨pid, hpid⟩ := Infinite.exists_notMem_finset taken
  simp only [taken, Finset.mem_union, Finset.mem_insert, Finset.mem_singleton, List.mem_toFinset,
    List.mem_map, not_or, not_exists, not_and] at hpid
  obtain ⟨⟨⟨hzero, hshell⟩, hpids⟩, hpgids⟩ := hpid
  exact ⟨pid, Nat.pos_of_ne_zero hzero, hshell, fun p hp _ => ⟨hpids p hp, hpgids p hp⟩⟩

/-- The first pipeline while no stage of it has run yet. -/
structure Forked (s : State) (pgid : ℕ) : Prop where
  launches : s.launches = 0
  jobs : s.jobs = []
  leader : pgid = 0 ↔ s.stages = []
  running : ∀ p ∈ s.stages, p.child.life = .running
  launch : ∀ p ∈ s.stages, p.launch = 0
  pgid : ∀ p ∈ s.stages, p.pgid = pgid

/-- One more stage is forked, and put into the group by the parent. -/
theorem Forked.stages {command : List Byte} {commands : List (List Byte)} {pid : ℕ}
    (h : Forked s pgid) (hp : s.phase = .forking line background (command :: commands) pgid)
    (hfresh : FreshPid s pid) :
    ∀ p ∈ (next (next s (.fork pid)) .parentSetpgid).stages,
      p.child.life = .running ∧ p.launch = 0 ∧ p.pgid = if pgid = 0 then pid else pgid := by
  obtain ⟨-, -, hfree⟩ := hfresh
  have hlive : ∀ p ∈ s.stages, p.child.life ≠ .reaped := by
    intro p hold
    rw [h.running p hold]
    simp
  simp only [next, hp]
  intro p' hp'
  obtain ⟨p, hmem, rfl⟩ := List.mem_map.mp hp'
  rcases List.mem_append.mp hmem with hold | hnew
  · have hne : pgid ≠ 0 := h.leader.not.mpr (List.ne_nil_of_mem hold)
    rw [if_neg fun hc => (hfree p hold (hlive p hold)).1 hc.1, if_neg hne]
    exact ⟨h.running p hold, h.launch p hold, h.pgid p hold⟩
  · rw [List.mem_singleton.mp hnew, if_pos ⟨rfl, by simp [Child.start], by simp⟩, setpgid,
      if_pos ?_]
    · exact ⟨rfl, h.launches, rfl⟩
    · -- the first stage leads the group, and keeps it in being for the later ones
      by_cases hz : pgid = 0
      · exact Or.inl (if_pos hz)
      · obtain ⟨q, hq⟩ := List.exists_mem_of_ne_nil _ (h.leader.not.mp hz)
        rw [if_neg hz]
        exact Or.inr (Or.inr ⟨q, List.mem_append_left _ hq, hlive q hq, h.pgid q hq⟩)

theorem Forked.fork_one {command : List Byte} {commands : List (List Byte)}
    (h : Forked t.shell pgid) (hr : Reached shellPgid lines t)
    (hp : t.shell.phase = .forking line background (command :: commands) pgid) :
    ∃ t' pgid', Reached shellPgid lines t' ∧ Forked t'.shell pgid' ∧
      t'.shell.phase = .forking line background commands pgid' ∧
      t'.shell.stages.length = t.shell.stages.length + 1 := by
  obtain ⟨pid, hfresh⟩ := exists_fresh t.shell
  have hforked := hr.step (e := .fork pid) (by simp only [Enabled, hp]; exact hfresh) trivial
  have hgrouped := hforked.step (e := .parentSetpgid) (by simp only [next, hp, Enabled]) trivial
  have hstages := h.stages hp hfresh
  refine ⟨_, if pgid = 0 then pid else pgid, hgrouped, ?_, by simp only [next, hp],
    by simp [next, hp]⟩
  have hpos := hfresh.1
  refine ⟨?_, ?_, ?_, fun p hps => (hstages p hps).1, fun p hps => (hstages p hps).2.1,
    fun p hps => (hstages p hps).2.2⟩
  · simp only [next, hp]
    exact h.launches
  · simp only [next, hp]
    exact h.jobs
  · simp only [next, hp]
    refine iff_of_false ?_ (by simp)
    split <;> omega

theorem Forked.fork_all {commands : List (List Byte)} (h : Forked t.shell pgid)
    (hr : Reached shellPgid lines t)
    (hp : t.shell.phase = .forking line background commands pgid) :
    ∃ t' pgid', Reached shellPgid lines t' ∧ Forked t'.shell pgid' ∧
      t'.shell.phase = .forking line background [] pgid' ∧
      t'.shell.stages.length = t.shell.stages.length + commands.length := by
  induction commands generalizing t pgid with
  | nil => exact ⟨t, pgid, hr, h, hp, rfl⟩
  | cons command commands ih =>
    obtain ⟨t₁, pgid₁, hr₁, h₁, hp₁, hlength₁⟩ := h.fork_one hr hp
    obtain ⟨t', pgid', hr', h', hp', hlength'⟩ := ih h₁ hr₁ hp₁
    refine ⟨t', pgid', hr', h', hp', ?_⟩
    rw [hlength', hlength₁, List.length_cons]
    omega

/-- The shell waits for two stages or more, and all of them are running. -/
structure Waiting (t : Tracked) (pgid : ℕ) : Prop where
  phase : t.shell.phase = .waiting pgid
  positive : 0 < pgid
  two : 2 ≤ t.shell.stages.length
  running : ∀ p ∈ t.shell.stages, p.child.life = .running
  launch : ∀ p ∈ t.shell.stages, p.launch = t.job
  pgid : ∀ p ∈ t.shell.stages, p.pgid = pgid

/-- `SIGCONT` changes nothing about a running process. -/
theorem kill_running (h : ∀ p ∈ s.stages, p.child.life = .running) {idx : ℕ} {pgid : ℤ}
    {foreground : Bool} (hp : s.phase = .continuing idx pgid foreground) :
    next s .kill = { s with phase := .assigning idx pgid foreground } := by
  have hstay : ∀ p ∈ s.stages, p.child.resume = p.child := fun p hps => dif_neg fun hs => by
    rw [Child.CanReport, h p hps] at hs
    cases hs
  have hmap : s.stages.map (fun p =>
      if InGroup s pgid p then { p with child := p.child.resume } else p) = s.stages := by
    refine (List.map_congr_left fun p hps => ?_).trans (List.map_id s.stages)
    rw [hstay p hps]
    split <;> rfl
  simp only [next, hp, hmap]

/-- `add_job`, and `fg` for a pipeline that was started in the background. -/
theorem Forked.waiting (h : Forked t.shell pgid) (hr : Reached shellPgid lines t)
    (hp : t.shell.phase = .forking line background [] pgid) (htwo : 2 ≤ t.shell.stages.length) :
    ∃ t', Reached shellPgid lines t' ∧ Waiting t' pgid := by
  have hpos : 0 < pgid := by
    refine Nat.pos_of_ne_zero (h.leader.not.mpr fun hnil => ?_)
    rw [hnil] at htwo
    cases htwo
  have hadd := hr.step (e := .addJob) (by simp only [Enabled, hp]) trivial
  cases background with
  | false =>
    refine ⟨_, hadd, ?_, hpos, ?_, ?_, ?_, ?_⟩ <;> simp only [next, hp]
    · rfl
    · exact htwo
    · exact h.running
    · intro p hps
      rw [h.launch p hps]
      exact h.launches.symm
    · exact h.pgid
  | true =>
    have hadded : next t.shell .addJob =
        ⟨t.shell.shellPgid, t.shell.stages, [⟨pgid, .print line, .running⟩], 1, .prompt⟩ := by
      simp only [next, hp, h.jobs, h.launches]
      rfl
    rw [hadded] at hadd
    have hcommand : Reached shellPgid lines ⟨⟨t.shell.shellPgid, t.shell.stages,
        [⟨pgid, .print line, .running⟩], 1, .continuing 0 pgid true⟩, 0⟩ :=
      hadd.step (e := .command 0 true) ⟨rfl, Nat.zero_lt_one⟩ trivial
    have hkill := hcommand.step (e := .kill) trivial trivial
    rw [kill_running (s := ⟨_, t.shell.stages, _, _, .continuing 0 pgid true⟩) h.running rfl]
      at hkill
    have hassign := hkill.step (e := .assign) trivial trivial
    exact ⟨_, hassign, rfl, hpos, htwo, h.running, h.launch, h.pgid⟩

/-- The first stage exits while the others run, and that ends the wait. -/
theorem Waiting.not_completed (h : Waiting t pgid) (hr : Reached shellPgid lines t) :
    ∃ t', Reached shellPgid lines t' ∧ Enabled t'.shell (.wait 0) ∧ ¬ Completed t' (.wait 0) := by
  have hne : (pgid : ℤ) ≠ 0 := by
    have := h.positive
    omega
  have htwo := h.two
  have hfirst : t.shell.stages[0]? = some t.shell.stages[0] := List.getElem?_eq_getElem (by omega)
  have hsecond : t.shell.stages[1]? = some t.shell.stages[1] := List.getElem?_eq_getElem (by omega)
  have hexits : t.shell.stages[0].child.CanReport .exited :=
    Or.inl (h.running _ (List.getElem_mem _))
  have hchanged := hr.step (e := .change 0 .exited) ⟨_, hfirst, hexits⟩ trivial
  have hwait : Enabled (next t.shell (.change 0 .exited)) (.wait 0) := by
    simp only [next, Enabled, h.phase]
    refine ⟨_, by rw [List.getElem?_modify_eq, hfirst]; rfl, ?_,
      Or.inr (Child.report_pending hexits)⟩
    rw [InGroup, if_neg hne]
    exact congrArg Nat.cast (h.pgid t.shell.stages[0] (List.getElem_mem _))
  refine ⟨_, hchanged, hwait, fun hc => ?_⟩
  refine (completed_iff_lastLeft hwait).mp hc 1 t.shell.stages[1] ?_ (by simp)
    (h.launch _ (List.getElem_mem _)) (h.running _ (List.getElem_mem _))
  simp only [next]
  rw [List.getElem?_modify_ne _ _ (by simp), hsecond]

/-- A line of two commands or more, typed in first. -/
theorem launched (shellPgid : ℕ) (hline : line ∈ lines) (hne : line ≠ [])
    (hb : isBuiltin line = false) :
    ∃ t background line', Reached shellPgid lines t ∧ Forked t.shell 0 ∧
      t.shell.stages = [] ∧ t.shell.phase = .forking line' background (commands line) 0 := by
  have hstart : Reached shellPgid lines ⟨initial shellPgid, 0⟩ := ⟨[], trivial, trivial, rfl⟩
  have hlaunch := hstart.step (e := .launch line) ⟨rfl, hne, hb⟩ hline
  have hforked : ∀ phase, Forked { initial shellPgid with phase := phase } 0 := fun phase =>
    ⟨rfl, rfl, iff_of_true rfl rfl, nofun, nofun, nofun⟩
  simp only [next] at hlaunch
  split at hlaunch
  · next hback =>
    exact ⟨_, _, _, hlaunch, hforked _, rfl, by rw [commands, if_pos hback]⟩
  · next hback =>
    exact ⟨_, _, _, hlaunch, hforked _, rfl, by rw [commands, if_neg hback]⟩

theorem oneStage_of_completed
    (h : ∀ es, (machine shellPgid).Valid es →
      (machine shellPgid).Along (fun _ e => Types lines e) es →
      (machine shellPgid).Along Completed es)
    (hline : line ∈ lines) (hne : line ≠ []) (hb : isBuiltin line = false) :
    (commands line).length ≤ 1 := by
  by_contra hlength
  obtain ⟨t₀, background, line', hr₀, h₀, hnil, hp₀⟩ := launched shellPgid hline hne hb
  obtain ⟨t₁, pgid, hr₁, h₁, hp₁, hstages⟩ := h₀.fork_all hr₀ hp₀
  rw [hnil, List.length_nil] at hstages
  obtain ⟨t₂, hr₂, h₂⟩ := h₁.waiting hr₁ hp₁ (by omega)
  obtain ⟨t, ⟨es, hv, htypes, rfl⟩, hwait, hnot⟩ := h₂.not_completed hr₂
  have hall := h (es ++ [.wait 0]) ((Machine.valid_concat es (.wait 0)).mpr ⟨hv, hwait⟩)
    ((Machine.along_concat es (.wait 0)).mpr ⟨htypes, trivial⟩)
  exact hnot ((Machine.along_concat es (.wait 0)).mp hall).2

/-- The shell returns from every foreground job only when all its stages have terminated or are
stopped, if no line has more than one command, and otherwise in no shell; in a run with longer
pipelines, as long as each wait is ended by the last running stage. -/
theorem completed_iff (shellPgid : ℕ) (lines : Set (List Byte)) :
    (∀ es, (machine shellPgid).Valid es →
      ((machine shellPgid).Along Completed es ↔ (machine shellPgid).Along LastLeft es)) ∧
    ((∀ es, (machine shellPgid).Valid es →
        (machine shellPgid).Along (fun _ e => Types lines e) es →
        (machine shellPgid).Along Completed es) ↔
      ∀ line ∈ lines, line ≠ [] → isBuiltin line = false → (commands line).length ≤ 1) := by
  refine ⟨fun es h => ?_, fun h line hline hne hb => ?_, fun h es hv htypes => ?_⟩
  · exact Machine.along_congr (fun _ _ _ _ he => completed_iff_lastLeft he) h h
  · exact oneStage_of_completed h hline hne hb
  · exact completed_of_oneStage h hv htypes

end

/-- A command that stops, is brought back and exits. -/
theorem completed_one_stage :
    (machine 50).Along Completed [.launch (CString.ascii "vi"), .fork 100, .parentSetpgid, .addJob,
      .childSetpgid 0, .exec 0, .change 0 .stopped, .wait 0, .command 0 true, .kill, .assign,
      .change 0 .exited, .wait 0] :=
  (completed_iff 50 {CString.ascii "vi"}).2.mpr (by rintro line rfl - -; decide) _ (by decide)
    ⟨rfl, trivial, trivial, trivial, trivial, trivial, trivial, trivial, trivial, trivial, trivial,
      trivial, trivial, trivial⟩

/-- The first of two stages exits, and the shell is back while the second is running. -/
theorem second_stage_left_running :
    ¬ ∀ es, (machine 50).Valid es → (machine 50).Along Completed es := by
  intro hall
  have hc := hall [.launch (CString.ascii "a|b"), .fork 100, .parentSetpgid, .fork 101,
    .parentSetpgid, .addJob, .childSetpgid 0, .exec 0, .childSetpgid 1, .exec 1, .change 0 .exited,
    .wait 0] (by decide)
  revert hc
  decide

end PipelineForeground
