import LinuxLabs.JobControlShell
import LinuxLabs.PipelineGroups

/-! # Which jobs are in the tables of the job-control shells (labs 11 and 12)
`add_job` only appends, and nothing ever takes an entry out, so the table is full for good after
`MAX_JOBS` launches, however many of those jobs have finished. -/
namespace JobListing

open Execution ChildProcess
open JobTable (maxJobs)

/-! ## Lab 11 -/

/-- `add_job` has run for the launches before this number. -/
def launched (s : JobControlShell.State) : ℕ := s.processes.length - s.phase.unrecorded

/-- Launch `k` has its entry. -/
def Listed (s : JobControlShell.State) (k : ℕ) : Prop :=
  ∃ job ∈ s.jobs[k]?, ∃ c ∈ s.processes[k]?, job.key = c.pid

def Unfinished (s : JobControlShell.State) (k : ℕ) : Prop :=
  ∃ c ∈ s.processes[k]?, c.life = .running ∨ c.life = .stopped

instance (s : JobControlShell.State) (k : ℕ) : Decidable (Listed s k) :=
  inferInstanceAs (Decidable (∃ job ∈ s.jobs[k]?, _))

instance (s : JobControlShell.State) (k : ℕ) : Decidable (Unfinished s k) :=
  inferInstanceAs (Decidable (∃ c ∈ s.processes[k]?, _))

/-- At most `MAX_JOBS` jobs are unfinished. -/
def FewUnfinished (s : JobControlShell.State) : Prop :=
  (s.processes.filter fun c => c.life = .running ∨ c.life = .stopped).length ≤ maxJobs

instance (s : JobControlShell.State) : Decidable (FewUnfinished s) :=
  inferInstanceAs (Decidable (_ ≤ _))

def pids (s : JobControlShell.State) : List ℕ := s.processes.map Child.pid

/-- The keys are the numbers of the first `MAX_JOBS` launches. -/
structure Entered (s : JobControlShell.State) : Prop where
  keys : s.jobs.map JobTable.Job.key = ((pids s).take (launched s)).take maxJobs
  newest : ∀ pid cmd background, s.phase = .launching pid cmd background →
    (pids s).drop (launched s) = [pid]

theorem take_add {α : Type*} (l : List α) (a : α) (n : ℕ) :
    (if (l.take n).length < n then l.take n ++ [a] else l.take n) = (l ++ [a]).take n := by
  by_cases hl : l.length < n
  · have hall : (l ++ [a]).length ≤ n := by
      rw [List.length_append]
      exact hl
    rw [List.take_of_length_le (Nat.le_of_lt hl), if_pos hl, List.take_of_length_le hall]
  · have hn : n ≤ l.length := Nat.not_lt.mp hl
    rw [List.length_take_of_le hn, if_neg (Nat.lt_irrefl n), List.take_append_of_le_length hn]

section

open JobControlShell

variable {s : State} {e : JobControlShell.Event}

/-- A step that starts no job and enters none. -/
theorem Entered.kept {s' : State} (h : Entered s) (hpids : pids s' = pids s)
    (hkeys : s'.jobs.map JobTable.Job.key = s.jobs.map JobTable.Job.key)
    (hphase : s'.phase = s.phase ∨ s'.phase.unrecorded = 0 ∧ s.phase.unrecorded = 0) :
    Entered s' := by
  have hlength : s'.processes.length = s.processes.length := by
    have := congrArg List.length hpids
    rwa [pids, pids, List.length_map, List.length_map] at this
  have hlaunched : launched s' = launched s := by
    rw [launched, launched, hlength]
    rcases hphase with hp | ⟨hp', hp⟩
    · rw [hp]
    · rw [hp', hp]
  refine ⟨by rw [hkeys, hpids, hlaunched, h.keys], fun pid cmd background hp => ?_⟩
  rw [hpids, hlaunched]
  rcases hphase with heq | ⟨hz, -⟩
  · exact h.newest pid cmd background (heq ▸ hp)
  · rw [hp] at hz
    cases hz

theorem pids_modify (cs : List Child) (i : ℕ) {f : Child → Child} (hf : ∀ c, (f c).pid = c.pid) :
    (cs.modify i f).map Child.pid = cs.map Child.pid := KeyedTable.map_modify hf cs i

theorem step_entered (h : Entered s) (he : Enabled s e) : Entered (next s e) := by
  cases e with
  | launch pid line =>
    obtain ⟨hp, -⟩ := he
    have hlength : launched s = s.processes.length := by rw [launched, hp]; rfl
    have hphase : (next s (.launch pid line)).phase.unrecorded = 1 := by
      simp only [next]
      split <;> rfl
    have hlaunched : launched (next s (.launch pid line)) = (pids s).length := by
      rw [launched, hphase, pids, List.length_map]
      simp [next]
    have hpids : pids (next s (.launch pid line)) = pids s ++ [pid] := by
      simp [pids, next, Child.start]
    refine ⟨?_, fun pid' cmd background hp' => ?_⟩
    · have hkeys := h.keys
      rw [hlength, ← List.length_map Child.pid, ← pids, List.take_length] at hkeys
      rw [hlaunched, hpids, List.take_left' rfl]
      exact hkeys
    · rw [hlaunched, hpids, List.drop_left' rfl]
      simp only [next] at hp'
      split at hp' <;> cases hp' <;> rfl
  | addJob =>
    obtain ⟨pid, cmd, background, hp⟩ := enabled_addJob he
    have hlast := h.newest pid cmd background hp
    have hall : (pids s).take (launched s) ++ [pid] = pids s := by
      rw [← hlast, List.take_append_drop]
    have hphase : (next s .addJob).phase.unrecorded = 0 := by
      simp only [next, hp]
      split <;> rfl
    have hlaunched : launched (next s .addJob) = (pids s).length := by
      rw [launched, hphase, pids, List.length_map]
      simp [next, hp]
    have hpids : pids (next s .addJob) = pids s := by simp only [next, hp, pids]
    refine ⟨?_, fun pid' cmd' background' hp' => ?_⟩
    · rw [hlaunched, hpids, List.take_length, ← hall, ← take_add, ← h.keys]
      simp only [next, hp, addJob, JobTable.add_keys]
    · rw [hp'] at hphase
      cases hphase
  | command idx foreground =>
    have hidle : (next s (.command idx foreground)).phase.unrecorded = 0 ∧
        (next s (.command idx foreground)).processes = s.processes ∧
        (next s (.command idx foreground)).jobs = s.jobs := by
      simp only [next]
      split
      · rw [he.1]
        exact ⟨rfl, rfl, rfl⟩
      · split
        · rw [he.1]
          exact ⟨rfl, rfl, rfl⟩
        · exact ⟨rfl, rfl, rfl⟩
    obtain ⟨hphase, hprocesses, hjobs⟩ := hidle
    exact h.kept (by rw [pids, pids, hprocesses]) (by rw [hjobs])
      (Or.inr ⟨hphase, by rw [he.1]; rfl⟩)
  | kill =>
    obtain ⟨_, _, _, hp⟩ := enabled_kill he
    refine h.kept ?_ (by simp only [next, hp])
      (Or.inr ⟨by simp only [next, hp]; rfl, by rw [hp]; rfl⟩)
    simp only [next, hp, pids, List.map_map]
    refine List.map_congr_left fun c _ => ?_
    simp only [Function.comp_apply]
    split
    · exact Child.resume_pid
    · rfl
  | assign =>
    obtain ⟨_, _, _, hp⟩ := enabled_assign he
    refine h.kept (by simp only [next, hp, pids])
      (by simp only [next, hp, JobTable.setState_keys]) (Or.inr ⟨?_, by rw [hp]; rfl⟩)
    simp only [next, hp]
    split <;> rfl
  | wait i =>
    obtain ⟨_, hp⟩ := enabled_wait he
    exact h.kept (pids_modify _ i fun c => Child.consume_pid) rfl
      (Or.inr ⟨rfl, by rw [hp]; rfl⟩)
  | noChild =>
    obtain ⟨_, hp⟩ := enabled_noChild he
    exact h.kept rfl rfl (Or.inr ⟨rfl, by rw [hp]; rfl⟩)
  | handle i =>
    simp only [next]
    split
    · exact h
    · split
      · exact h
      · exact h.kept (pids_modify _ i fun c => Child.consume_pid) (JobTable.record_keys ..)
          (Or.inl rfl)
  | change i st => exact h.kept (pids_modify _ i fun c => Child.report_pid) rfl (Or.inl rfl)

theorem initial_entered : Entered initial := ⟨rfl, fun _ _ _ hp => by cases hp⟩

theorem Entered.listed (h : Entered s) {k : ℕ} (hk : k < launched s) :
    Listed s k ↔ k < maxJobs := by
  have hkeys := h.keys
  constructor
  · rintro ⟨job, hjob, -⟩
    have hlt := (List.getElem?_eq_some_iff.mp hjob).1
    have hlength := congrArg List.length hkeys
    rw [List.length_map, List.length_take] at hlength
    omega
  · intro hmax
    have hlt : k < s.processes.length := Nat.lt_of_lt_of_le hk (Nat.sub_le _ _)
    have hpid : (pids s)[k]? = some s.processes[k].pid := by
      rw [pids, List.getElem?_map, List.getElem?_eq_getElem hlt]
      rfl
    have hkey : (s.jobs.map JobTable.Job.key)[k]? = some s.processes[k].pid := by
      rw [hkeys, List.getElem?_take_of_lt hmax, List.getElem?_take_of_lt hk, hpid]
    rw [List.getElem?_map] at hkey
    obtain ⟨job, hjob, hkey⟩ := Option.map_eq_some_iff.mp hkey
    exact ⟨job, hjob, s.processes[k], List.getElem?_eq_getElem hlt, hkey⟩

end

/-! ## Lab 12 -/

/-- Pipeline `k` has its entry, under the group that its processes ask for. -/
def PipelineListed (s : PipelineShell.State) (k : ℕ) : Prop :=
  ∃ job ∈ s.jobs[k]?, ∀ p ∈ s.stages, p.launch = k → job.key = p.group

theorem pipeline_listed_iff {s : PipelineShell.State} (h : PipelineGroups.Recorded s) {k : ℕ}
    (hk : k < s.launches) : PipelineListed s k ↔ k < maxJobs := by
  have hentries := h.entries
  constructor
  · rintro ⟨job, hjob, -⟩
    have hlt := (List.getElem?_eq_some_iff.mp hjob).1
    omega
  · intro hmax
    have hlt : k < s.jobs.length := by omega
    refine ⟨s.jobs[k], List.getElem?_eq_getElem hlt, fun p hp hl => ?_⟩
    subst hl
    exact h.keys p hp _ (List.getElem?_eq_getElem hlt)

/-- After every run, of either shell, a job is in the table exactly when it was among the first
`MAX_JOBS`. -/
theorem listed_iff (es : List JobControlShell.Event) (h : JobControlShell.machine.Valid es)
    (shellPgid : ℕ) (fs : List PipelineShell.Event)
    (h' : (PipelineShell.machine shellPgid).Valid fs) :
    (∀ k < launched (JobControlShell.machine.run es),
      Listed (JobControlShell.machine.run es) k ↔ k < maxJobs) ∧
    ∀ k < ((PipelineShell.machine shellPgid).run fs).launches,
      PipelineListed ((PipelineShell.machine shellPgid).run fs) k ↔ k < maxJobs := by
  have he : Entered (JobControlShell.machine.run es) :=
    Machine.invariant (I := Entered) initial_entered (fun _ _ hs he => step_entered hs he) h
  have hr : PipelineGroups.Recorded ((PipelineShell.machine shellPgid).run fs) :=
    Machine.invariant (I := PipelineGroups.Recorded)
      (PipelineGroups.initial_grouped shellPgid).recorded
      (fun _ _ hs he => PipelineGroups.step_recorded hs he) h'
  exact ⟨fun k hk => he.listed hk, fun k hk => pipeline_listed_iff hr hk⟩

/-- A background job of each shell. -/
theorem listed_background :
    Listed (JobControlShell.machine.run [.launch 100 (CString.ascii "sleep 9&"), .addJob]) 0 ∧
      PipelineListed ((PipelineShell.machine 50).run [.launch (CString.ascii "a|b&"), .fork 100,
        .parentSetpgid, .fork 101, .parentSetpgid, .addJob]) 0 := by
  have hlisted := listed_iff [.launch 100 (CString.ascii "sleep 9&"), .addJob] (by decide) 50
    [.launch (CString.ascii "a|b&"), .fork 100, .parentSetpgid, .fork 101, .parentSetpgid, .addJob]
    (by decide)
  exact ⟨(hlisted.1 0 (by decide)).mpr (by decide), (hlisted.2 0 (by decide)).mpr (by decide)⟩

/-- A foreground command from its start to its end. -/
def foregroundCommand (i : ℕ) : List JobControlShell.Event :=
  [.launch 100 (CString.ascii "true"), .addJob, .change i .exited, .wait i]

/-- After 64 commands, each of which ended before the next was typed in, a background job is not
in the table. -/
theorem unlisted_after_64 :
    ¬ ∀ es, JobControlShell.machine.Valid es →
      JobControlShell.machine.Along (fun s _ => FewUnfinished s) es →
      FewUnfinished (JobControlShell.machine.run es) →
      ∀ k < launched (JobControlShell.machine.run es),
        Unfinished (JobControlShell.machine.run es) k →
          Listed (JobControlShell.machine.run es) k := by
  intro hall
  have hl := hall ((List.range 64).flatMap foregroundCommand ++
    [.launch 100 (CString.ascii "sleep 9&"), .addJob]) (by decide +kernel) (by decide +kernel)
    (by decide +kernel) 64 (by decide +kernel) (by decide +kernel)
  revert hl
  decide +kernel

end JobListing
