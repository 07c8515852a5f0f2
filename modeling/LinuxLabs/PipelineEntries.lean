import LinuxLabs.PipelineGroups

/-! # The process groups in the pipeline shell's table
`execute_pipeline` enters its `pgid` whether or not it has forked anything. Number 0 stands for
the group of the shell itself when `fg` or `bg` come to use the entry. -/
namespace PipelineEntries

open Execution PipelineShell PipelineGroups
open JobTable (maxJobs)

/-- The group that `kill` and `waitpid` mean by `-pgid`. -/
def target (s : State) (pgid : ℤ) : ℤ := if pgid = 0 then s.shellPgid else pgid

/-- What `fg` or `bg` is about to signal, and `fg` to wait for. -/
def aimed : Phase → Option ℤ
  | .continuing _ pgid _ | .assigning _ pgid _ => some pgid
  | .prompt | .forking _ _ _ _ | .grouping _ _ _ _ _ | .waiting _ => none

/-- An entry has the number of a process of its pipeline, and `fg` and `bg` leave the shell's own
group alone. -/
structure NamesGroups (s : State) : Prop where
  entries : ∀ (k : ℕ) (job : Job), s.jobs[k]? = some job →
    0 < job.key ∧ ∃ p ∈ s.stages, p.launch = k ∧ (p.child.pid : ℤ) = job.key
  spared : ∀ pgid ∈ aimed s.phase, target s pgid ≠ s.shellPgid

/-- A pipeline that goes into the table has a process. -/
def Forked (s : State) : Event → Prop
  | .addJob => s.jobs.length < maxJobs → ∃ p ∈ s.stages, p.launch = s.launches
  | _ => True

instance (s : State) (e : Event) : Decidable (Forked s e) := by
  casesm Event <;> simp only [Forked] <;> infer_instance

/-! ## What the main program does in a step -/

/-- What the entries depend on: `pgid`, the group aimed at, the keys of the table, and the number
of pipelines. -/
structure Control where
  pgid : Option ℕ
  aim : Option ℤ
  keys : List ℤ
  launches : ℕ

def control (s : State) : Control :=
  ⟨pgidVariable s.phase, aimed s.phase, s.jobs.map JobTable.Job.key, s.launches⟩

/-- The keys after `add_job`. -/
def addKey (keys : List ℤ) (pgid : ℕ) : List ℤ :=
  if keys.length < maxJobs then keys ++ [(pgid : ℤ)] else keys

inductive Moves (s : State) : Event → Control → Prop where
  | stays {e : Event} : e ≠ .addJob → Moves s e (control s)
  | launches {line : List CString.Byte} :
      Moves s (.launch line) { control s with pgid := some 0, aim := none }
  | forks {pid pgid : ℕ} : pgidVariable s.phase = some pgid →
      Moves s (.fork pid) { control s with pgid := some (if pgid = 0 then pid else pgid) }
  | adds {pgid : ℕ} : pgidVariable s.phase = some pgid →
      Moves s .addJob ⟨none, none, addKey (control s).keys pgid, s.launches + 1⟩
  | ends {e : Event} : e ≠ .addJob → Moves s e { control s with pgid := none, aim := none }
  | aims {idx : ℕ} {foreground : Bool} {job : Job} : job ∈ s.jobs →
      Moves s (.command idx foreground) { control s with pgid := none, aim := some job.key }

variable {s : State} {e : Event}

theorem handle_keys (s : State) (j : ℕ) :
    (next s (.handle j)).jobs.map JobTable.Job.key = s.jobs.map JobTable.Job.key := by
  simp only [next]
  split
  · rfl
  · split
    · rfl
    · exact JobTable.record_keys ..

theorem handle_phase (s : State) (j : ℕ) :
    (next s (.handle j)).phase = s.phase ∧ (next s (.handle j)).launches = s.launches := by
  simp only [next]
  split
  · exact ⟨rfl, rfl⟩
  · split <;> exact ⟨rfl, rfl⟩

theorem next_moves (he : Enabled s e) : Moves s e (control (next s e)) := by
  cases e with
  | launch line =>
    have hc : control (next s (.launch line)) = { control s with pgid := some 0, aim := none } := by
      simp only [next]
      split <;> rfl
    rw [hc]
    exact .launches
  | fork pid =>
    obtain ⟨line, background, command, commands, pgid, hp, -⟩ := enabled_fork he
    have hc : control (next s (.fork pid)) =
        { control s with pgid := some (if pgid = 0 then pid else pgid) } := by
      simp only [next, hp, control, pgidVariable, aimed]
    rw [hc]
    exact .forks (by rw [hp]; rfl)
  | forkFailed =>
    obtain ⟨_, _, _, _, _, hp⟩ := enabled_forkFailed he
    have hc : control (next s .forkFailed) = control s := by
      simp only [next, control, hp, pgidVariable, aimed]
    rw [hc]
    exact .stays (by simp)
  | parentSetpgid =>
    obtain ⟨_, _, _, _, _, hp⟩ := enabled_parentSetpgid he
    have hc : control (next s .parentSetpgid) = control s := by
      simp only [next, control, hp, pgidVariable, aimed]
    rw [hc]
    exact .stays (by simp)
  | addJob =>
    obtain ⟨line, background, pgid, hp⟩ := enabled_addJob he
    have hc : control (next s .addJob) =
        ⟨none, none, addKey (control s).keys pgid, s.launches + 1⟩ := by
      simp only [next, hp, control, addJob, JobTable.add_keys]
      split <;> rfl
    rw [hc]
    exact .adds (by rw [hp]; rfl)
  | childSetpgid | exec | change => exact .stays (by simp)
  | handle j =>
    have hc : control (next s (.handle j)) = control s := by
      rw [control, handle_keys, (handle_phase s j).1, (handle_phase s j).2]
      rfl
    rw [hc]
    exact .stays (by simp)
  | wait | noChild => exact .ends (by simp)
  | command idx foreground =>
    simp only [next]
    split
    · exact .stays (by simp)
    · next job hjob =>
      split
      · exact .stays (by simp)
      · exact .aims (List.mem_of_getElem? hjob)
  | kill =>
    obtain ⟨_, _, _, hp⟩ := enabled_kill he
    have hc : control (next s .kill) = control s := by
      simp only [next, control, hp, pgidVariable, aimed]
    rw [hc]
    exact .stays (by simp)
  | assign =>
    obtain ⟨idx, pgid, foreground, hp⟩ := enabled_assign he
    have hc : control (next s .assign) = { control s with pgid := none, aim := none } := by
      simp only [next, hp, control, JobTable.setState_keys]
      split <;> rfl
    rw [hc]
    exact .ends (by simp)

/-- The parent's variable is 0 until it is the number of a process of the pipeline, and `fg` and
`bg` aim at an entry. -/
structure Led (s : State) : Prop where
  pids : ∀ p ∈ s.stages, 0 < p.child.pid ∧ p.child.pid ≠ s.shellPgid
  leader : ∀ pgid, (control s).pgid = some pgid → pgid ≠ 0 →
    ∃ p ∈ s.stages, p.launch = (control s).launches ∧ p.child.pid = pgid
  aimed : ∀ pgid ∈ (control s).aim, pgid ∈ (control s).keys

theorem next_shellPgid (s : State) (e : Event) : (next s e).shellPgid = s.shellPgid := by
  cases e with
  | launch | fork | forkFailed | parentSetpgid | addJob | kill | assign =>
    simp only [next]
    split <;> rfl
  | childSetpgid | exec | change | wait | noChild => rfl
  | handle | command =>
    simp only [next]
    split
    · rfl
    · split <;> rfl

theorem step_pids (h : ∀ p ∈ s.stages, 0 < p.child.pid ∧ p.child.pid ≠ s.shellPgid)
    (he : Enabled s e) :
    ∀ p ∈ (next s e).stages, 0 < p.child.pid ∧ p.child.pid ≠ (next s e).shellPgid := by
  intro p' hp'
  rw [next_shellPgid]
  obtain ⟨j, hj, rfl⟩ := List.mem_iff_getElem.mp hp'
  rcases next_stages (List.getElem?_eq_getElem hj) with ⟨p, hp, hf⟩ |
    ⟨pid, line, background, command, commands, pgid, rfl, hphase, -, hnew⟩
  · rw [hf.pid]
    exact h p (List.mem_of_getElem? hp)
  · rw [hnew]
    simp only [Enabled, hphase] at he
    exact ⟨he.1, he.2.1⟩

theorem fork_leader {pid : ℕ} (he : Enabled s (.fork pid)) :
    ∃ p ∈ (next s (.fork pid)).stages, p.launch = s.launches ∧ p.child.pid = pid := by
  obtain ⟨_, _, _, _, _, hphase, -⟩ := enabled_fork he
  simp only [next, hphase]
  exact ⟨_, List.mem_append_right _ (List.mem_singleton_self _), rfl, rfl⟩

theorem step_led (h : Led s) (he : Enabled s e) : Led (next s e) := by
  have hold {k pid : ℕ} : (∃ p ∈ s.stages, p.launch = k ∧ p.child.pid = pid) →
      ∃ p ∈ (next s e).stages, p.launch = k ∧ p.child.pid = pid := by
    rintro ⟨p, hp, hl, hpid⟩
    obtain ⟨p', hp', hf⟩ := next_keeps (e := e) hp
    exact ⟨p', hp', hf.launch.trans hl, hf.pid.trans hpid⟩
  have hmoves := next_moves he
  refine ⟨step_pids h.pids he, fun pgid hpgid hne => ?_, fun pgid haim => ?_⟩
  · generalize hc : control (next s e) = c at hmoves hpgid ⊢
    cases hmoves with
    | stays => exact hold (h.leader pgid hpgid hne)
    | launches =>
      cases hpgid
      exact absurd rfl hne
    | @forks pid old hp =>
      cases hpgid
      by_cases hz : old = 0
      · rw [if_pos hz]
        exact fork_leader he
      · rw [if_neg hz]
        exact hold (h.leader old hp hz)
    | adds | ends | aims => cases hpgid
  · generalize hc : control (next s e) = c at hmoves haim ⊢
    cases hmoves with
    | stays | forks => exact h.aimed pgid haim
    | launches | adds | ends => cases haim
    | aims hjob =>
      cases haim
      exact List.mem_map_of_mem hjob

/-! ## The entries -/

/-- The key at `k` is the number of a process of pipeline `k`. -/
def Named (s : State) (k : ℕ) (key : ℤ) : Prop :=
  0 < key ∧ ∃ p ∈ s.stages, p.launch = k ∧ (p.child.pid : ℤ) = key

theorem Named.next {k : ℕ} {key : ℤ} (h : Named s k key) (e : Event) : Named (next s e) k key := by
  obtain ⟨hpos, p, hp, hl, hpid⟩ := h
  obtain ⟨p', hp', hf⟩ := next_keeps (e := e) hp
  exact ⟨hpos, p', hp', hf.launch.trans hl, by rw [hf.pid]; exact hpid⟩

/-- The table alone decides: the group of the shell is nobody's number. -/
theorem namesGroups_iff (h : Led s) :
    NamesGroups s ↔ ∀ k key, (control s).keys[k]? = some key → Named s k key := by
  constructor
  · intro hn k key hk
    rw [control, List.getElem?_map] at hk
    obtain ⟨job, hjob, rfl⟩ := Option.map_eq_some_iff.mp hk
    exact hn.entries k job hjob
  · intro hall
    refine ⟨fun k job hjob => hall k job.key ?_, fun pgid haim => ?_⟩
    · rw [control, List.getElem?_map, hjob]
      rfl
    · obtain ⟨k, hk, rfl⟩ := List.mem_iff_getElem.mp (h.aimed pgid haim)
      obtain ⟨hpos, p, hp, -, hpid⟩ := hall k _ (List.getElem?_eq_getElem hk)
      have hshell := (h.pids p hp).2
      rw [target, if_neg (by omega), ← hpid]
      omega

theorem forked_of_ne (h : e ≠ .addJob) : Forked s e := by
  cases e with
  | addJob => exact absurd rfl h
  | _ => trivial

theorem addJob_stages (s : State) : (next s .addJob).stages = s.stages := by
  simp only [next]
  split <;> rfl

/-- The entry that `add_job` makes is named when the pipeline has a process. -/
theorem add_named (h : Led s) (hr : Recorded s) {pgid : ℕ}
    (hp : pgidVariable s.phase = some pgid) :
    Named (next s .addJob) s.launches pgid ↔ ∃ p ∈ s.stages, p.launch = s.launches := by
  constructor
  · rintro ⟨-, p, hp, hl, -⟩
    rw [addJob_stages] at hp
    exact ⟨p, hp, hl⟩
  · rintro ⟨p, hps, hl⟩
    have hgroup := hr.current p hps hl
    rw [hp] at hgroup
    have hpos : 0 < pgid := Option.some.inj hgroup ▸ hr.positive p hps
    obtain ⟨q, hq, hql, hqpid⟩ := h.leader pgid hp (Nat.ne_of_gt hpos)
    have hnamed : Named s s.launches pgid := ⟨by omega, q, hq, hql, by rw [hqpid]⟩
    exact hnamed.next .addJob

theorem step_named (h : Led s) (hr : Recorded s) (he : Enabled s e) (hn : NamesGroups s) :
    NamesGroups (next s e) ↔ Forked s e := by
  have hall := (namesGroups_iff h).mp hn
  have hkept : ∀ k key, (control s).keys[k]? = some key → Named (next s e) k key :=
    fun k key hk => (hall k key hk).next e
  rw [namesGroups_iff (step_led h he)]
  have hmoves := next_moves he
  generalize control (next s e) = c at hmoves
  cases hmoves with
  | stays hne | ends hne => exact iff_of_true hkept (forked_of_ne hne)
  | launches | forks | aims => exact iff_of_true hkept trivial
  | @adds pgid hp =>
    have hlength : (control s).keys.length = s.jobs.length := List.length_map ..
    by_cases hroom : s.jobs.length < maxJobs
    · have hlast : s.jobs.length = s.launches := by
        have := hr.entries
        omega
      rw [addKey, hlength, if_pos hroom]
      constructor
      · intro hnew _
        refine (add_named h hr hp).mp (hnew s.launches pgid ?_)
        rw [← hlast, ← hlength]
        exact List.getElem?_concat_length
      · intro hf k key hk
        rcases KeyedTable.append_some hk with hk | ⟨rfl, rfl⟩
        · exact hkept k key hk
        · rw [hlength, hlast]
          exact (add_named h hr hp).mpr (hf hroom)
    · rw [addKey, hlength, if_neg hroom]
      exact iff_of_true hkept fun hr => absurd hr hroom

theorem initial_led (shellPgid : ℕ) : Led (initial shellPgid) := by
  refine ⟨fun p hp => ?_, fun pgid hp => ?_, fun pgid hp => ?_⟩
  · cases hp
  · cases hp
  · cases hp

/-- In every run the table names process groups, and `fg` and `bg` spare the shell's, in all the
states reached exactly when every pipeline that is entered has a process. -/
theorem entries_named_iff (shellPgid : ℕ) (es : List Event) (h : (machine shellPgid).Valid es) :
    (machine shellPgid).Along (fun s e => NamesGroups (next s e)) es ↔
      (machine shellPgid).Along Forked es := by
  refine (Machine.along_iff_reached (M := machine shellPgid) (P := NamesGroups) ?_ ?_ h).symm
  · exact (namesGroups_iff (initial_led shellPgid)).mpr fun k key hk => by cases hk
  · intro es e hv he hn
    obtain ⟨hled, hr⟩ := Machine.invariant (I := fun s => Led s ∧ Recorded s)
      ⟨initial_led shellPgid, (initial_grouped shellPgid).recorded⟩
      (fun _ _ hs he => ⟨step_led hs.1 he, step_recorded hs.2 he⟩) hv
    exact step_named hled hr he hn

/-- The first fork of a pipeline fails, and the second gives its number to the entry. -/
theorem second_stage_named :
    (machine 50).Along (fun s e => NamesGroups (next s e))
      [.launch (CString.ascii "a|b&"), .forkFailed, .fork 100, .parentSetpgid, .addJob,
        .command 0 true, .kill, .assign] :=
  (entries_named_iff 50 _ (by decide)).mpr (by decide)

/-- A line of one bar is entered under 0, and `fg 1` is about to signal the shell. -/
theorem bar_aims_at_shell :
    ¬ ∀ es, (machine 50).Valid es → (machine 50).Along (fun s e => NamesGroups (next s e)) es := by
  intro hall
  have hn := hall [.launch (CString.ascii "|"), .addJob, .noChild, .command 0 true] (by decide)
  exact hn.2.2.2.1.spared 0 rfl rfl

end PipelineEntries
