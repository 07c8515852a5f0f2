import LinuxLabs.ChildProcess
import LinuxLabs.Execution
import LinuxLabs.JobTable

/-! # The job list of the mini shell (lab 10)
Only background jobs get an entry, after the `fork` and the `setpgid` that go before, and no entry
is ever taken out. The SIGCHLD handler may run at any point, and it takes the exits of all
children. -/
namespace MiniShell

open Execution CString ChildProcess
open JobTable (isBackground)

def maxJobs : ℕ := 32

abbrev cmdSize : ℕ := 128

instance neZeroCmdSize : NeZero cmdSize := ⟨by decide⟩

structure Job where
  pid : ℕ
  cmd : CharArray cmdSize
  running : Bool
  deriving DecidableEq

/-- A child of the shell. `added` says that `add_job` has been called for it. -/
structure Launch where
  child : Child
  cmd : List Byte
  added : Bool
  deriving DecidableEq

inductive Phase where
  | prompt
  | adding (pid : ℕ) (cmd : List Byte)
  | waiting (pid : ℕ)
  deriving DecidableEq

structure State where
  jobs : List Job
  launches : List Launch
  phase : Phase

def initial : State := ⟨[], [], .prompt⟩

def Job.finish (job : Job) : Job := { job with running := false }

/-- One round of `sigchld_handler`. -/
def sigchldHandler (jobs : List Job) (pid : ℕ) : List Job :=
  KeyedTable.update Job.pid pid Job.finish jobs

/-- `strncpy` leaves the last byte for the terminator. -/
def addJob (jobs : List Job) (pid : ℕ) (cmd : List Byte) : List Job :=
  if jobs.length < maxJobs then jobs ++ [⟨pid, CharArray.print cmd, true⟩] else jobs

/-- What `list_jobs` prints: the number of the entry, the process and its command. -/
def listJobs (jobs : List Job) : List (ℕ × ℕ × List Byte) :=
  (jobs.zipIdx.filter fun j => j.1.running).map fun j => (j.2 + 1, j.1.pid, j.1.cmd.text)

def isBuiltin (line : List Byte) : Bool := line = ascii "exit" ∨ line = ascii "jobs"

/-- `wait i` and `handle i` take the status of child `i`, in the foreground `waitpid` and in the
handler; `noChild` is that `waitpid` failing. -/
inductive Event where
  | launch (pid : ℕ) (line : List Byte)
  | addJob
  | wait (i : ℕ)
  | noChild
  | handle (i : ℕ)
  | change (i : ℕ) (st : Status)
  deriving DecidableEq

def Launch.Alive (l : Launch) : Prop := l.child.life ≠ .reaped

instance (l : Launch) : Decidable l.Alive := inferInstanceAs (Decidable (_ ≠ _))

def Phase.isAdding : Phase → Bool
  | .adding _ _ => true
  | _ => false

def Phase.awaited : Phase → Option ℕ
  | .waiting pid => some pid
  | _ => none

def Enabled (s : State) : Event → Prop
  | .launch pid line => s.phase = .prompt ∧ line ≠ [] ∧ (0 : Byte) ∉ line ∧
      isBuiltin line = false ∧ ∀ l ∈ s.launches, l.Alive → l.child.pid ≠ pid
  | .addJob => s.phase.isAdding = true
  | .wait i => ∃ l ∈ s.launches[i]?, s.phase.awaited = some l.child.pid ∧
      (l.child.pending = some .stopped ∨ l.child.pending = some .exited)
  | .noChild => ∃ pid ∈ s.phase.awaited, ∀ l ∈ s.launches, l.child.pid = pid → ¬ l.Alive
  | .handle i => ∃ l ∈ s.launches[i]?, l.child.pending = some .exited
  | .change i st => ∃ l ∈ s.launches[i]?, l.child.CanReport st

def Launch.consume (l : Launch) : Launch := { l with child := l.child.consume }

def Launch.report (l : Launch) (st : Status) : Launch := { l with child := l.child.report st }

def next (s : State) : Event → State
  | .launch pid line =>
    let background := isBackground line
    let cmd := if background then line.dropLast else line
    { s with
      launches := s.launches ++ [⟨Child.start pid, cmd, false⟩]
      phase := if background then .adding pid cmd else .waiting pid }
  | .addJob =>
    match s.phase with
    | .adding pid cmd =>
      { s with
        jobs := addJob s.jobs pid cmd
        launches := s.launches.modify (s.launches.length - 1) fun l => { l with added := true }
        phase := .prompt }
    | _ => s
  | .wait i => { s with launches := s.launches.modify i Launch.consume, phase := .prompt }
  | .noChild => { s with phase := .prompt }
  | .handle i =>
    match s.launches[i]? with
    | none => s
    | some l =>
      { s with
        jobs := sigchldHandler s.jobs l.child.pid
        launches := s.launches.modify i Launch.consume }
  | .change i st => { s with launches := s.launches.modify i fun l => l.report st }

def machine : Machine State Event := ⟨initial, Enabled, next⟩

instance (s : State) (e : Event) : Decidable (machine.Enabled s e) := by
  simp only [machine]
  casesm Event <;> simp only [Enabled] <;> infer_instance

/-! ## What the list should show -/

/-- What the list should say of a background job that is not reaped. -/
def Launch.line (l : Launch) : Option (ℕ × List Byte) :=
  if l.added ∧ l.Alive then some (l.child.pid, snprintf cmdSize l.cmd) else none

/-- The list shows the unfinished background jobs, in the order of their start. -/
def ListRight (s : State) : Prop :=
  (listJobs s.jobs).map Prod.snd = s.launches.filterMap Launch.line

instance (s : State) : Decidable (ListRight s) := inferInstanceAs (Decidable (_ = _))

/-- The first entry of this number is an old one only if there is no running one of it. -/
def FindsOwn (jobs : List Job) (pid : ℕ) : Prop :=
  ∀ job ∈ KeyedTable.lookup Job.pid pid jobs, job.running = false →
    ∀ job' ∈ jobs, job'.pid = pid → job'.running = false

instance (jobs : List Job) (pid : ℕ) : Decidable (FindsOwn jobs pid) :=
  inferInstanceAs (Decidable (∀ job ∈ KeyedTable.lookup Job.pid pid jobs, _))

/-- There is room for a job, unless it has been reaped before it is added; and a number that comes
again is not found in an entry of its last use. -/
def Kept (s : State) : Event → Prop
  | .addJob => ∀ l ∈ s.launches.getLast?, s.jobs.length < maxJobs ↔ l.Alive
  | .handle i => ∀ l ∈ s.launches[i]?, FindsOwn s.jobs l.child.pid
  | _ => True

instance (s : State) (e : Event) : Decidable (Kept s e) := by
  casesm Event <;> simp only [Kept] <;> infer_instance

variable {s : State} {jobs : List Job} {launches : List Launch} {l : Launch} {pid i : ℕ}

/-! ## The table -/

def shown (jobs : List Job) : List (ℕ × List Byte) :=
  (jobs.filter Job.running).map fun job => (job.pid, job.cmd.text)

theorem listJobs_shown (jobs : List Job) : (listJobs jobs).map Prod.snd = shown jobs := by
  have hfrom (n : ℕ) : ((jobs.zipIdx n).filter fun j => j.1.running).map
      (fun j => (j.1.pid, j.1.cmd.text)) = shown jobs := by
    induction jobs generalizing n with
    | nil => rfl
    | cons job jobs ih =>
      rw [List.zipIdx_cons]
      cases hr : job.running with
      | true => simp [shown, hr, ih (n + 1)]
      | false => simp [shown, hr, ih (n + 1)]
  rw [listJobs, List.map_map]
  exact hfrom 0

theorem listRight_iff : ListRight s ↔ shown s.jobs = s.launches.filterMap Launch.line := by
  rw [ListRight, listJobs_shown]

theorem shown_cons (job : Job) : shown (job :: jobs) =
    if job.running then (job.pid, job.cmd.text) :: shown jobs else shown jobs := by
  cases hr : job.running <;> simp [shown, hr]

theorem mem_shown :
    pid ∈ (shown jobs).map Prod.fst ↔ ∃ job ∈ jobs, job.running ∧ job.pid = pid := by
  simp only [shown, List.map_map, List.mem_map, List.mem_filter, and_assoc, Function.comp_apply]

/-- Without a line of this number there is nothing to take out. -/
theorem filter_shown (h : pid ∉ (shown jobs).map Prod.fst) :
    (shown jobs).filter (fun line => line.1 ≠ pid) = shown jobs := by
  apply List.filter_eq_self.mpr
  intro line hline
  have hne : line.1 ≠ pid := fun heq => h (heq ▸ List.mem_map_of_mem hline)
  simpa using hne

theorem findsOwn_cons_ne {job : Job} (h : job.pid ≠ pid) :
    FindsOwn (job :: jobs) pid ↔ FindsOwn jobs pid := by
  unfold FindsOwn
  rw [KeyedTable.lookup_cons, if_neg h]
  constructor
  · intro hf job₁ h₁ hr job₂ h₂
    exact hf job₁ h₁ hr job₂ (List.mem_cons_of_mem _ h₂)
  · intro hf job₁ h₁ hr job₂ h₂ hpid
    rcases List.mem_cons.mp h₂ with rfl | h₂
    · exact absurd hpid h
    · exact hf job₁ h₁ hr job₂ h₂ hpid

/-- The handler takes the line of this number out of the list, if it finds the right entry. -/
theorem shown_handler (hn : ((shown jobs).map Prod.fst).Nodup) :
    shown (sigchldHandler jobs pid) = (shown jobs).filter (fun line => line.1 ≠ pid) ↔
      FindsOwn jobs pid := by
  induction jobs with
  | nil => exact iff_of_true rfl (fun job hj => by cases hj)
  | cons job jobs ih =>
    unfold sigchldHandler at ih ⊢
    rw [KeyedTable.update_cons]
    by_cases hpid : job.pid = pid
    · rw [if_pos hpid, shown_cons, if_neg (by simp [Job.finish])]
      cases hr : job.running with
      | true =>
        rw [shown_cons, if_pos hr, List.map_cons, List.nodup_cons, hpid] at hn
        rw [shown_cons, if_pos hr, List.filter_cons_of_neg (by simp [hpid]), filter_shown hn.1]
        refine iff_of_true rfl fun first hfirst hstale => ?_
        rw [KeyedTable.lookup_cons, if_pos hpid] at hfirst
        obtain rfl := Option.some.inj hfirst
        rw [hr] at hstale
        cases hstale
      | false =>
        rw [shown_cons, if_neg (by simp [hr])]
        constructor
        · rintro heq first - - job' hjob' hpid'
          rcases List.mem_cons.mp hjob' with rfl | hjob'
          · exact hr
          · by_contra hrun
            have hmem := mem_shown.mpr ⟨job', hjob', Bool.not_eq_false _ ▸ hrun, hpid'⟩
            rw [heq] at hmem
            simp at hmem
        · intro hf
          rw [filter_shown]
          intro hmem
          obtain ⟨job', hjob', hrun, hpid'⟩ := mem_shown.mp hmem
          have hfirst : job ∈ KeyedTable.lookup Job.pid pid (job :: jobs) := by
            rw [KeyedTable.lookup_cons, if_pos hpid]
            rfl
          have hdone := hf job hfirst hr job' (List.mem_cons_of_mem _ hjob') hpid'
          rw [hrun] at hdone
          cases hdone
    · rw [if_neg hpid, findsOwn_cons_ne hpid, shown_cons, shown_cons]
      split_ifs with hr
      · rw [shown_cons, if_pos hr, List.map_cons, List.nodup_cons] at hn
        rw [List.filter_cons_of_pos (by simpa using hpid), List.cons_inj_right]
        exact ih hn.2
      · rw [shown_cons, if_neg hr] at hn
        exact ih hn

/-! ## The children -/

/-- The kernel gives a number to one child at a time. -/
def Distinct (launches : List Launch) : Prop :=
  launches.Pairwise fun a b => a.Alive → b.Alive → a.child.pid ≠ b.child.pid

theorem Launch.line_pid {line : ℕ × List Byte} (h : l.line = some line) :
    l.Alive ∧ line.1 = l.child.pid := by
  unfold Launch.line at h
  split_ifs at h with hl
  rw [← Option.some.inj h]
  exact ⟨hl.2, rfl⟩

theorem lines_nodup (h : Distinct launches) :
    ((launches.filterMap Launch.line).map Prod.fst).Nodup := by
  induction launches with
  | nil => exact List.nodup_nil
  | cons l launches ih =>
    obtain ⟨hhead, htail⟩ := List.pairwise_cons.mp h
    cases hl : l.line with
    | none =>
      rw [List.filterMap_cons_none hl]
      exact ih htail
    | some line =>
      obtain ⟨halive, hpid⟩ := Launch.line_pid hl
      rw [List.filterMap_cons_some hl, List.map_cons]
      refine List.nodup_cons.mpr ⟨?_, ih htail⟩
      intro hmem
      obtain ⟨line', hline', heq⟩ := List.mem_map.mp hmem
      obtain ⟨l', hl', hsome⟩ := List.mem_filterMap.mp hline'
      obtain ⟨halive', hpid'⟩ := Launch.line_pid hsome
      exact hhead l' hl' halive halive' (by rw [← hpid, ← hpid', heq])

/-- A change of a child that the list is not about. -/
theorem lines_modify {f : Launch → Launch} (h : ∀ l ∈ launches[i]?, (f l).line = l.line) :
    (launches.modify i f).filterMap Launch.line = launches.filterMap Launch.line := by
  induction launches generalizing i with
  | nil => rw [List.modify_nil]
  | cons l launches ih =>
    cases i with
    | zero =>
      rw [List.modify_zero_cons, List.filterMap_cons, List.filterMap_cons, h l rfl]
    | succ i =>
      rw [List.modify_succ_cons, List.filterMap_cons, List.filterMap_cons,
        ih fun l hl => h l (by simpa using hl)]

/-- When a child is reaped its line, if it has one, goes. -/
theorem lines_reap {f : Launch → Launch} (hd : Distinct launches) (hl : launches[i]? = some l)
    (halive : l.Alive) (hf : (f l).line = none) :
    (launches.modify i f).filterMap Launch.line =
      (launches.filterMap Launch.line).filter fun line => line.1 ≠ l.child.pid := by
  induction launches generalizing i with
  | nil => cases hl
  | cons first launches ih =>
    obtain ⟨hhead, htail⟩ := List.pairwise_cons.mp hd
    cases i with
    | zero =>
      obtain rfl : first = l := Option.some.inj hl
      have hrest : (launches.filterMap Launch.line).filter (fun line => line.1 ≠ first.child.pid) =
          launches.filterMap Launch.line := by
        apply List.filter_eq_self.mpr
        intro line hline
        obtain ⟨l', hl', hsome⟩ := List.mem_filterMap.mp hline
        obtain ⟨halive', hpid'⟩ := Launch.line_pid hsome
        simpa [hpid'] using (hhead l' hl' halive halive').symm
      rw [List.modify_zero_cons, List.filterMap_cons_none hf]
      cases hline : first.line with
      | none => rw [List.filterMap_cons_none hline, hrest]
      | some line =>
        rw [List.filterMap_cons_some hline, List.filter_cons_of_neg, hrest]
        simp [(Launch.line_pid hline).2]
    | succ i =>
      have hl' : launches[i]? = some l := by simpa using hl
      rw [List.modify_succ_cons]
      cases hline : first.line with
      | none => rw [List.filterMap_cons_none hline, List.filterMap_cons_none hline, ih htail hl']
      | some line =>
        obtain ⟨halive', hpid'⟩ := Launch.line_pid hline
        have hne := hhead l (List.mem_of_getElem? hl') halive' halive
        rw [List.filterMap_cons_some hline, List.filterMap_cons_some hline,
          List.filter_cons_of_pos (by simpa [hpid'] using hne), ih htail hl']

theorem distinct_modify {f : Launch → Launch} (h : Distinct launches)
    (hf : ∀ l, (f l).child.pid = l.child.pid ∧ ((f l).Alive → l.Alive)) :
    Distinct (launches.modify i f) := by
  unfold Distinct at h ⊢
  induction launches generalizing i with
  | nil => rwa [List.modify_nil]
  | cons l launches ih =>
    obtain ⟨hhead, htail⟩ := List.pairwise_cons.mp h
    cases i with
    | zero =>
      rw [List.modify_zero_cons]
      refine List.pairwise_cons.mpr ⟨fun b hb ha halive => ?_, htail⟩
      rw [(hf l).1]
      exact hhead b hb ((hf l).2 ha) halive
    | succ i =>
      rw [List.modify_succ_cons]
      refine List.pairwise_cons.mpr ⟨fun b hb ha halive => ?_, ih htail⟩
      obtain ⟨j, c, hc, rfl⟩ := KeyedTable.mem_modify hb
      have hmem := List.mem_of_getElem? hc
      split_ifs at halive ⊢ with hji
      · rw [(hf c).1]
        exact hhead c hmem ha ((hf c).2 halive)
      · exact hhead c hmem ha halive

/-! ## Each step -/

/-- The job to be added is the newest child, and what the shell waits for is no background job. -/
structure Invariant (s : State) : Prop where
  distinct : Distinct s.launches
  newest : ∀ pid cmd, s.phase = .adding pid cmd → (0 : Byte) ∉ cmd ∧
    ∃ l ∈ s.launches.getLast?, l.child.pid = pid ∧ l.cmd = cmd ∧ l.added = false
  awaited : ∀ pid, s.phase.awaited = some pid → ∀ l ∈ s.launches, l.Alive → l.child.pid = pid →
    l.added = false

theorem consume_alive (l : Launch) :
    l.consume.child.pid = l.child.pid ∧ (l.consume.Alive → l.Alive) :=
  ⟨Child.consume_pid, Child.consume_not_reaped⟩

theorem report_alive (l : Launch) (st : Status) :
    (l.report st).child.pid = l.child.pid ∧ ((l.report st).Alive ↔ l.Alive) :=
  ⟨Child.report_pid, not_congr Child.report_reaped⟩

theorem alive_of_pending {st : Status} (h : l.child.pending = some st) : l.Alive := by
  intro hr
  rw [Child.pending_of_reaped hr] at h
  cases h

/-- A change that gives no child another number and brings none back. -/
theorem Invariant.modify (h : Invariant s) {f : Launch → Launch} (i : ℕ)
    (hf : ∀ l, (f l).child.pid = l.child.pid ∧ ((f l).Alive → l.Alive) ∧ (f l).cmd = l.cmd ∧
      (f l).added = l.added) (jobs : List Job) :
    Invariant { s with jobs := jobs, launches := s.launches.modify i f } := by
  refine ⟨distinct_modify h.distinct fun l => ⟨(hf l).1, (hf l).2.1⟩, fun pid cmd hp => ?_,
    fun pid hp b hb halive hpid => ?_⟩
  · obtain ⟨hcmd, l, hlast, hpid, hc, hadded⟩ := h.newest pid cmd hp
    refine ⟨hcmd, if i = s.launches.length - 1 then f l else l, ?_, ?_⟩
    · rw [Option.mem_def, List.getLast?_eq_getElem?] at hlast ⊢
      rw [List.length_modify, List.getElem?_modify, hlast]
      rfl
    · split_ifs
      · exact ⟨(hf l).1.trans hpid, (hf l).2.2.1.trans hc, (hf l).2.2.2.trans hadded⟩
      · exact ⟨hpid, hc, hadded⟩
  · obtain ⟨j, c, hc, rfl⟩ := KeyedTable.mem_modify hb
    have hmem := List.mem_of_getElem? hc
    split_ifs at halive hpid ⊢ with hji
    · rw [(hf c).2.2.2]
      exact h.awaited pid hp c hmem ((hf c).2.1 halive) ((hf c).1.symm.trans hpid)
    · exact h.awaited pid hp c hmem halive hpid

theorem modify_last (before : List Launch) (l : Launch) (f : Launch → Launch) :
    (before ++ [l]).modify ((before ++ [l]).length - 1) f = before ++ [f l] := by
  rw [List.length_append, List.length_singleton, Nat.add_sub_cancel]
  induction before with
  | nil => rfl
  | cons first before ih => exact congrArg (first :: ·) ih

/-- The number of a new child is not that of another one. -/
theorem Invariant.launch (h : Invariant s) {line : List Byte}
    (he : Enabled s (.launch pid line)) : Invariant (next s (.launch pid line)) := by
  obtain ⟨-, hne, hnul, -, hfresh⟩ := he
  refine ⟨?_, fun p cmd hp => ?_, fun p hp l hl halive hpid => ?_⟩
  · apply List.pairwise_append.mpr
    refine ⟨h.distinct, List.pairwise_singleton _ _, fun a ha b hb halive _ => ?_⟩
    rw [List.mem_singleton.mp hb]
    exact hfresh a ha halive
  · cases hb : isBackground line with
    | false => simp [next, hb] at hp
    | true =>
      simp only [next, hb, if_true, Phase.adding.injEq] at hp
      obtain ⟨rfl, rfl⟩ := hp
      refine ⟨fun hm => hnul (List.dropLast_subset _ hm), _, List.getLast?_concat, rfl, ?_, rfl⟩
      simp [hb]
  · cases hb : isBackground line with
    | true => simp [next, hb, Phase.awaited] at hp
    | false =>
      simp only [next, hb, Bool.false_eq_true, if_false, Phase.awaited, Option.some.injEq] at hp
      subst hp
      rcases List.mem_append.mp hl with hl | hl
      · exact absurd hpid (hfresh l hl halive)
      · rw [List.mem_singleton.mp hl]

theorem invariant_prompt (jobs : List Job) (h : Distinct launches) :
    Invariant ⟨jobs, launches, .prompt⟩ :=
  ⟨h, nofun, nofun⟩

/-- `add_job` is called for the newest child. -/
theorem enabled_addJob (h : Invariant s) (he : Enabled s .addJob) :
    ∃ before l, s.launches = before ++ [l] ∧ l.added = false ∧ (0 : Byte) ∉ l.cmd ∧
      next s .addJob =
        ⟨addJob s.jobs l.child.pid l.cmd, before ++ [{ l with added := true }], .prompt⟩ := by
  cases hp : s.phase with
  | prompt =>
    rw [Enabled, hp] at he
    cases he
  | waiting pid =>
    rw [Enabled, hp] at he
    cases he
  | adding pid cmd =>
    obtain ⟨hcmd, l, hlast, rfl, rfl, hadded⟩ := h.newest pid cmd hp
    obtain ⟨before, hlaunches⟩ := List.getLast?_eq_some_iff.mp hlast
    refine ⟨before, l, hlaunches, hadded, hcmd, ?_⟩
    simp only [next, hp]
    rw [hlaunches, modify_last]

theorem invariant_next {e : Event} (h : Invariant s) (he : Enabled s e) :
    Invariant (next s e) := by
  cases e with
  | launch pid line => exact h.launch he
  | addJob =>
    obtain ⟨before, l, hlaunches, -, -, hnext⟩ := enabled_addJob h he
    rw [hnext]
    apply invariant_prompt
    have hd := h.distinct
    rw [hlaunches] at hd
    obtain ⟨hbefore, -, hlast⟩ := List.pairwise_append.mp hd
    refine List.pairwise_append.mpr ⟨hbefore, List.pairwise_singleton _ _, fun a ha b hb => ?_⟩
    rw [List.mem_singleton.mp hb]
    exact hlast a ha l List.mem_cons_self
  | wait i => exact invariant_prompt _ (distinct_modify h.distinct consume_alive)
  | noChild => exact invariant_prompt _ h.distinct
  | handle i =>
    obtain ⟨l, hl, -⟩ := he
    simp only [next, Option.mem_def.mp hl]
    exact h.modify i (fun l => ⟨(consume_alive l).1, (consume_alive l).2, rfl, rfl⟩) _
  | change i st =>
    exact h.modify i (fun l => ⟨(report_alive l st).1, (report_alive l st).2.mp, rfl, rfl⟩) _

theorem invariant_initial : Invariant initial := ⟨List.Pairwise.nil, nofun, nofun⟩

theorem addJob_right (h : Invariant s) (he : Enabled s .addJob) (hr : ListRight s) :
    ListRight (next s .addJob) ↔ Kept s .addJob := by
  obtain ⟨before, l, hlaunches, hadded, hcmd, hnext⟩ := enabled_addJob h he
  have hkept : Kept s .addJob ↔ (s.jobs.length < maxJobs ↔ l.Alive) := by
    simp only [Kept, hlaunches, List.getLast?_concat, Option.mem_def, Option.some.injEq,
      forall_eq']
  have hline : l.line = none := by simp [Launch.line, hadded]
  rw [listRight_iff, hlaunches, List.filterMap_append, List.filterMap_cons_none hline,
    List.filterMap_nil, List.append_nil] at hr
  rw [hkept, hnext, listRight_iff, List.filterMap_append, ← hr]
  have hnew : shown (addJob s.jobs l.child.pid l.cmd) = shown s.jobs ++
      if s.jobs.length < maxJobs then [(l.child.pid, snprintf cmdSize l.cmd)] else [] := by
    unfold addJob
    split_ifs
    · simp [shown, CharArray.print, cstr_of_noNul hcmd]
    · rw [List.append_nil]
  rw [hnew, List.append_cancel_left_eq]
  by_cases hl : l.Alive
  · have hline' : Launch.line { l with added := true } =
        some (l.child.pid, snprintf cmdSize l.cmd) := if_pos ⟨rfl, hl⟩
    rw [List.filterMap_cons_some hline', List.filterMap_nil, iff_true_right hl]
    split_ifs with hroom <;> simp [hroom]
  · have hline' : Launch.line { l with added := true } = none := if_neg fun hboth => hl hboth.2
    rw [List.filterMap_cons_none hline', List.filterMap_nil, iff_false_right hl]
    split_ifs with hroom <;> simp [hroom]

theorem handle_right (h : Invariant s) (he : Enabled s (.handle i)) (hr : ListRight s) :
    ListRight (next s (.handle i)) ↔ Kept s (.handle i) := by
  obtain ⟨l, hl, hpending⟩ := he
  have hl : s.launches[i]? = some l := hl
  have hkept : Kept s (.handle i) ↔ FindsOwn s.jobs l.child.pid := by
    simp only [Kept, hl, Option.mem_def, Option.some.injEq, forall_eq']
  have hreaped : l.consume.line = none := by
    refine if_neg fun hboth => hboth.2 ?_
    exact (Child.consume_reaped hpending).mpr rfl
  rw [listRight_iff] at hr
  have hnodup : ((shown s.jobs).map Prod.fst).Nodup := by
    rw [hr]
    exact lines_nodup h.distinct
  rw [hkept, ← shown_handler hnodup, hr, ← lines_reap h.distinct hl (alive_of_pending hpending)
    hreaped, listRight_iff]
  simp only [next, hl]

theorem step_right {e : Event} (h : Invariant s) (he : Enabled s e) (hr : ListRight s) :
    ListRight (next s e) ↔ Kept s e := by
  cases e with
  | addJob => exact addJob_right h he hr
  | handle i => exact handle_right h he hr
  | launch pid line =>
    refine iff_of_true ?_ trivial
    rw [listRight_iff] at hr ⊢
    rw [next, List.filterMap_append, ← hr]
    exact (List.append_nil _).symm
  | noChild => exact iff_of_true hr trivial
  | wait i =>
    refine iff_of_true ?_ trivial
    obtain ⟨l, hl, hp, hpending⟩ := he
    have halive : l.Alive := hpending.elim alive_of_pending alive_of_pending
    have hadded := h.awaited _ hp l (List.mem_of_getElem? hl) halive rfl
    rw [listRight_iff] at hr ⊢
    refine hr.trans (lines_modify fun l' hl' => ?_).symm
    obtain rfl : l = l' := Option.some.inj (hl.symm.trans hl')
    simp [Launch.line, Launch.consume, hadded]
  | change i st =>
    refine iff_of_true ?_ trivial
    rw [listRight_iff] at hr ⊢
    refine hr.trans (lines_modify fun l _ => ?_).symm
    obtain ⟨hpid, halive⟩ := report_alive l st
    simp only [Launch.line, hpid, halive]
    rfl

/-- The list is right after every step exactly if every job finds room, or is reaped too early to
need it, and none is taken for an old one of its number. -/
theorem jobs_shown_iff {es : List Event} (h : machine.Valid es) :
    machine.Along (fun s e => ListRight (next s e)) es ↔ machine.Along Kept es := by
  have hstart : ListRight machine.initial := rfl
  refine (Machine.along_iff_reached hstart (fun es e hv he hr => ?_) h).symm
  have hinv : Invariant (machine.run es) :=
    Machine.invariant (I := Invariant) invariant_initial (fun _ _ hs he => invariant_next hs he) hv
  exact step_right hinv he hr

/-- A job that is done before it is added stays in the list, and then its number comes again. -/
def earlyRun : List Event :=
  [.launch 100 (ascii "true &"), .change 0 .exited, .handle 0, .addJob, .launch 100 (ascii "ls&"),
    .addJob, .change 1 .exited, .handle 1]

theorem jobs_shown_iff_early :
    (machine.Along (fun s e => ListRight (next s e)) earlyRun ↔ machine.Along Kept earlyRun) ∧
      ¬ machine.Along Kept earlyRun ∧
      listJobs (machine.run earlyRun).jobs = [(2, 100, ascii "ls")] :=
  ⟨jobs_shown_iff (by decide +kernel), by decide +kernel, by decide +kernel⟩

end MiniShell
