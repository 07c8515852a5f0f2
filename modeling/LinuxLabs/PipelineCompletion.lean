import LinuxLabs.PipelineShell

/-! # When the pipeline shell's jobs are DONE
The handler asks for the group of a process it has just reaped and is told there is no
such process, so the exit of a stage reaches no entry. -/
namespace PipelineCompletion

open Execution ChildProcess PipelineShell
open JobTable (JobState recorded)

/-- The pipeline has a stage, and all of them are reaped. -/
def Finished (s : State) (k : ℕ) : Prop :=
  (∃ p ∈ s.stages, p.launch = k) ∧ ∀ p ∈ s.stages, p.launch = k → p.child.life = .reaped

def SomeAlive (s : State) (k : ℕ) : Prop :=
  ∃ p ∈ s.stages, p.launch = k ∧ (p.child.life = .running ∨ p.child.life = .stopped)

/-- The entry of pipeline `k` is DONE once its last stage is reaped, and not while one is alive. -/
def Complete (s : State) (k : ℕ) : Prop :=
  ∀ job ∈ s.jobs[k]?, (Finished s k → job.state = .done) ∧ (SomeAlive s k → job.state ≠ .done)

instance (s : State) (k : ℕ) : Decidable (Finished s k) := inferInstanceAs (Decidable (_ ∧ _))

instance (s : State) (k : ℕ) : Decidable (SomeAlive s k) :=
  inferInstanceAs (Decidable (∃ p ∈ s.stages, _ ∧ _))

instance (s : State) (k : ℕ) : Decidable (Complete s k) := by
  unfold Complete
  infer_instance

structure Invariant (s : State) : Prop where
  distinct : Distinct s
  keys : ∀ job ∈ s.jobs, 0 ≤ job.key
  unfinished : ∀ job ∈ s.jobs, job.state ≠ .done

theorem getpgid_reaped {stages : List Stage} {pid : ℕ}
    (h : ∀ p ∈ stages, p.child.pid = pid → p.child.life = .reaped) : getpgid stages pid = -1 := by
  have hnone : stages.find? (fun p => p.child.pid = pid ∧ p.child.life ≠ .reaped) = none := by
    refine List.find?_eq_none.mpr fun p hp => ?_
    have := h p hp
    simpa using this
  rw [getpgid, hnone]

/-- The number of a stage whose exit has been taken is nobody's. -/
theorem exited_unnumbered {s : State} (h : Distinct s) {j : ℕ} {p : Stage}
    (hp : s.stages[j]? = some p) (hex : p.child.pending = some .exited) :
    ∀ q ∈ s.stages.modify j Stage.consume, q.child.pid = p.child.pid → q.child.life = .reaped := by
  intro q hq hpid
  obtain ⟨i, q', hq', rfl⟩ := KeyedTable.mem_modify hq
  by_cases hji : j = i
  · subst i
    obtain rfl := Option.some.inj (hp.symm.trans hq')
    rw [if_pos rfl]
    exact (Child.consume_reaped hex).mpr rfl
  · rw [if_neg hji] at hpid ⊢
    by_contra hlive
    have hplive : p.child.life ≠ .reaped := by
      intro hr
      rw [Child.pending_of_reaped hr] at hex
      cases hex
    refine hji (h j i p.child q'.child ?_ ?_ hplive hlive hpid.symm)
    · rw [List.getElem?_map, hp]
      rfl
    · rw [List.getElem?_map, hq']
      rfl

theorem find_negative {jobs : List Job} (h : ∀ job ∈ jobs, 0 ≤ job.key) :
    findJob jobs (-1) = none := by
  refine KeyedTable.slot_eq_none.mpr fun hm => ?_
  obtain ⟨job, hjob, hkey⟩ := List.mem_map.mp hm
  have := h job hjob
  omega

theorem handler_exit {s : State} (h : Invariant s) {j : ℕ} {p : Stage}
    (hp : s.stages[j]? = some p) (hex : p.child.pending = some .exited) :
    sigchldHandler (s.stages.modify j Stage.consume) s.jobs p.child.pid .exited = s.jobs := by
  have hnone : JobTable.find s.jobs (-1) = none := find_negative h.keys
  rw [sigchldHandler, getpgid_reaped (exited_unnumbered h.distinct hp hex), JobTable.record, hnone]

/-- The entries only change their state, or one goes behind the others. -/
def Grows (jobs jobs' : List Job) : Prop :=
  ∀ job' ∈ jobs', 0 ≤ job'.key ∧ job'.state ≠ .done ∨ job' ∈ jobs

theorem setState_grows {jobs : List Job} (h : ∀ job ∈ jobs, 0 ≤ job.key) (idx : ℕ) {st : JobState}
    (hst : st ≠ .done) : Grows jobs (JobTable.setState jobs idx st) := by
  intro job' hjob'
  obtain ⟨i, old, hold, rfl⟩ := KeyedTable.mem_modify hjob'
  have hmem := List.mem_of_getElem? hold
  split
  · exact Or.inl ⟨h old hmem, hst⟩
  · exact Or.inr hmem

theorem step_grows {s : State} (h : Invariant s) (e : Event) : Grows s.jobs (next s e).jobs := by
  have hsame : Grows s.jobs s.jobs := fun job hj => Or.inr hj
  cases e with
  | launch line =>
    simp only [next]
    split <;> exact hsame
  | fork | forkFailed | parentSetpgid | kill =>
    simp only [next]
    split <;> exact hsame
  | childSetpgid | exec | change | wait | noChild => exact hsame
  | command idx foreground =>
    simp only [next]
    split
    · exact hsame
    · split <;> exact hsame
  | addJob =>
    simp only [next]
    split
    · next line background pgid hp =>
      simp only [addJob, JobTable.add]
      split
      · intro job hj
        rcases List.mem_append.mp hj with hj | hj
        · exact Or.inr hj
        · rw [List.mem_singleton.mp hj]
          exact Or.inl ⟨Int.natCast_nonneg pgid, by simp⟩
      · exact hsame
    · exact hsame
  | assign =>
    simp only [next]
    split
    · exact setState_grows h.keys _ (by simp)
    · exact hsame
  | handle j =>
    simp only [next]
    split
    · exact hsame
    · next p hp =>
      split
      · exact hsame
      · next st hst =>
        cases st with
        | exited => rw [handler_exit h hp hst]; exact hsame
        | stopped | continued =>
          simp only [sigchldHandler, JobTable.record]
          split
          · exact hsame
          · exact setState_grows h.keys _ (by simp [recorded])

theorem step_invariant {s : State} (h : Invariant s) {e : Event} (he : Enabled s e) :
    Invariant (next s e) := by
  have hgrows := step_grows h e
  refine ⟨step_distinct h.distinct he, fun job hj => ?_, fun job hj => ?_⟩
  · rcases hgrows job hj with ⟨hkey, _⟩ | hold
    · exact hkey
    · exact h.keys job hold
  · rcases hgrows job hj with ⟨_, hst⟩ | hold
    · exact hst
    · exact h.unfinished job hold

theorem initial_invariant (shellPgid : ℕ) : Invariant (initial shellPgid) := by
  refine ⟨?_, ?_, ?_⟩
  · intro i j c d hc
    cases hc
  · intro job hj
    cases hj
  · intro job hj
    cases hj

/-- In no run is an entry ever DONE, so it is right until the pipeline's last stage is reaped
and wrong from then on. -/
theorem complete_iff_unfinished (shellPgid : ℕ) (es : List Event) (h : (machine shellPgid).Valid es)
    (k : ℕ) (hk : k < ((machine shellPgid).run es).jobs.length) :
    ((machine shellPgid).run es).jobs[k].state ≠ .done ∧
      (Complete ((machine shellPgid).run es) k ↔ ¬ Finished ((machine shellPgid).run es) k) := by
  have hi := Machine.invariant (I := Invariant) (initial_invariant shellPgid)
    (fun _ _ hs he => step_invariant hs he) h
  have hnot := hi.unfinished _ (List.getElem_mem hk)
  refine ⟨hnot, fun hc hf => ?_, fun hf job hj => ?_⟩
  · exact hnot ((hc _ (List.getElem?_eq_getElem hk)).1 hf)
  · rw [List.getElem?_eq_getElem hk] at hj
    obtain rfl := Option.some.inj hj
    exact ⟨fun hd => absurd hd hf, fun _ => hnot⟩

/-- One background stage, from its fork to the handler taking its exit. -/
def sleepRun : List Event := [.launch (CString.ascii "sleep 1&"), .fork 100, .parentSetpgid,
  .addJob, .childSetpgid 0, .exec 0, .change 0 .exited, .handle 0]

theorem sleep_never_done :
    ((machine 50).run sleepRun).jobs[0].state ≠ .done ∧
      (Complete ((machine 50).run sleepRun) 0 ↔ ¬ Finished ((machine 50).run sleepRun) 0) :=
  complete_iff_unfinished 50 sleepRun (by decide) 0 (by decide)

/-- The only stage of a background job has been reaped by the handler, and the entry is RUNNING. -/
theorem reaped_job_incomplete :
    ¬ ∀ es, (machine 50).Valid es → ∀ k, Complete ((machine 50).run es) k := by
  intro hall
  have hc := hall sleepRun (by decide) 0
  revert hc
  decide

end PipelineCompletion
