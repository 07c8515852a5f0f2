import LinuxLabs.Execution
import LinuxLabs.CString
import LinuxLabs.KeyedTable

/-! # The background-job table (lab 07)
A slot keeps its old process number when it becomes inactive, and the handler looks for a
number without asking whether the slot is active. As `add_job` takes the first slot that is
free, no slot before an active one has its number. -/
namespace BackgroundJobs

open Execution CString

def maxJobs : ℕ := 20
abbrev maxLen : ℕ := 256

structure Job where
  pid : ℕ
  cmd : CharArray maxLen
  active : Bool
  deriving DecidableEq

/-- `jobs` is a global array. -/
def noJobs : List Job := List.replicate maxJobs ⟨0, CharArray.empty, false⟩

def Job.clear (job : Job) : Job := { job with active := false }

/-- One round of `sigchld_handler`, for what `waitpid` returned. -/
def sigchldHandler (jobs : List Job) (pid : ℕ) : List Job :=
  match KeyedTable.slot Job.pid pid jobs with
  | none => jobs
  | some i => jobs.modify i Job.clear

def freeSlot (jobs : List Job) : Option ℕ := jobs.findIdx? fun job => !job.active

def addJob (jobs : List Job) (pid : ℕ) (cmd : List Byte) : List Job :=
  match freeSlot jobs with
  | none => jobs
  | some i => jobs.set i ⟨pid, CharArray.print cmd, true⟩

/-- A process that is not reaped; `slot` is where `add_job` has put it. -/
structure Process where
  pid : ℕ
  added : Bool
  slot : Option ℕ
  deriving DecidableEq

structure State where
  jobs : List Job
  processes : List Process

def initial : State := ⟨noJobs, []⟩

/-- `reap` is the handler's round for a process, `wait` the foreground `waitpid`. -/
inductive Event where
  | fork (pid : ℕ)
  | add (pid : ℕ) (cmd : List Byte)
  | reap (pid : ℕ)
  | wait (pid : ℕ)
  deriving DecidableEq

def Enabled (s : State) : Event → Prop
  | .fork pid => ∀ p ∈ s.processes, p.pid ≠ pid
  | .add pid _ => ∃ p ∈ s.processes, p.pid = pid ∧ p.added = false
  | .reap pid => ∃ p ∈ s.processes, p.pid = pid
  | .wait pid => ∃ p ∈ s.processes, p.pid = pid ∧ p.added = false

def next (s : State) : Event → State
  | .fork pid => { s with processes := s.processes ++ [⟨pid, false, none⟩] }
  | .add pid cmd =>
    { s with
      jobs := addJob s.jobs pid cmd
      processes := s.processes.map fun p =>
        if p.pid = pid then ⟨pid, true, freeSlot s.jobs⟩ else p }
  | .reap pid =>
    { s with
      jobs := sigchldHandler s.jobs pid
      processes := s.processes.filter fun p => p.pid ≠ pid }
  | .wait pid => { s with processes := s.processes.filter fun p => p.pid ≠ pid }

def machine : Machine State Event := ⟨initial, Enabled, next⟩

instance (s : State) (e : Event) : Decidable (Enabled s e) := by
  cases e <;> simp only [Enabled] <;> infer_instance

instance (s : State) (e : Event) : Decidable (machine.Enabled s e) :=
  inferInstanceAs (Decidable (Enabled s e))

/-- The slot `i` is active, with the number `pid`. -/
def Shows (jobs : List Job) (i pid : ℕ) : Prop :=
  ∃ job, jobs[i]? = some job ∧ job.active = true ∧ job.pid = pid

/-- The active slots are those of the processes that were added and found one. -/
structure TableRight (s : State) : Prop where
  distinct : ∀ i j pid, Shows s.jobs i pid → Shows s.jobs j pid → i = j
  exact : ∀ i pid, Shows s.jobs i pid ↔ ∃ p ∈ s.processes, p.pid = pid ∧ p.slot = some i

/-- A reaped process clears its own slot, if it has one, and no other. -/
def ClearsOwn (s : State) : Event → Prop
  | .reap pid => ∀ p ∈ s.processes, p.pid = pid → (next s (.reap pid)).jobs =
      match p.slot with
      | none => s.jobs
      | some i => s.jobs.modify i Job.clear
  | _ => True

variable {s : State} {e : Event} {jobs : List Job} {i j pid : ℕ}

/-! ## The slots after an operation -/

theorem shows_clear : Shows (jobs.modify i Job.clear) j pid ↔ j ≠ i ∧ Shows jobs j pid := by
  constructor
  · rintro ⟨job, hjob, hactive, hpid⟩
    obtain ⟨old, hold, rfl⟩ := KeyedTable.modify_some hjob
    by_cases hij : i = j
    · rw [if_pos hij] at hactive
      cases hactive
    · rw [if_neg hij] at hactive hpid
      exact ⟨Ne.symm hij, old, hold, hactive, hpid⟩
  · rintro ⟨hij, job, hjob, hactive, hpid⟩
    refine ⟨job, ?_, hactive, hpid⟩
    rw [List.getElem?_modify_ne _ _ (Ne.symm hij), hjob]

theorem shows_set (hi : i < jobs.length) {cmd : CharArray maxLen} {q : ℕ} :
    Shows (jobs.set i ⟨pid, cmd, true⟩) j q ↔ j = i ∧ q = pid ∨ j ≠ i ∧ Shows jobs j q := by
  by_cases hij : j = i
  · subst hij
    rw [Shows, List.getElem?_set_self hi]
    simpa using eq_comm
  · simp [Shows, hij, List.getElem?_set_ne (Ne.symm hij)]

theorem freeSlot_some (h : freeSlot jobs = some i) :
    i < jobs.length ∧ (∀ q, ¬ Shows jobs i q) ∧
      ∀ k < i, ∀ job ∈ jobs[k]?, Shows jobs k job.pid := by
  obtain ⟨hi, hfree, hbefore⟩ := List.findIdx?_eq_some_iff_getElem.mp h
  refine ⟨hi, ?_, ?_⟩
  · rintro q ⟨job, hjob, hactive, -⟩
    rw [List.getElem?_eq_getElem hi] at hjob
    cases hjob
    simp [hactive] at hfree
  · intro k hk job hjob
    have hlt : k < jobs.length := Nat.lt_trans hk hi
    rw [Option.mem_def, List.getElem?_eq_getElem hlt] at hjob
    cases hjob
    exact ⟨jobs[k], List.getElem?_eq_getElem hlt, by simpa using hbefore k hk, rfl⟩

/-! ## No slot before an active one has its number -/

structure Invariant (s : State) : Prop where
  pids : KeyedTable.Distinct Process.pid s.processes
  unseen : ∀ p ∈ s.processes, p.added = false → p.slot = none
  exact : ∀ i pid, Shows s.jobs i pid ↔ ∃ p ∈ s.processes, p.pid = pid ∧ p.slot = some i
  first : ∀ i j pid, Shows s.jobs j pid → i < j → ∀ job ∈ s.jobs[i]?, job.pid ≠ pid

theorem Invariant.tableRight (h : Invariant s) : TableRight s := by
  refine ⟨fun i j pid hi hj => ?_, h.exact⟩
  obtain ⟨p, hp, hpid, hslot⟩ := (h.exact i pid).mp hi
  obtain ⟨q, hq, hqid, hqslot⟩ := (h.exact j pid).mp hj
  have hpq : p = q := h.pids.eq_of_key hp hq (hpid.trans hqid.symm)
  subst hpq
  rw [hslot] at hqslot
  exact Option.some.inj hqslot

/-- A process that is not in the table has its number in no active slot. -/
theorem Invariant.not_shown (h : Invariant s) {p : Process} (hp : p ∈ s.processes)
    (hslot : p.slot = none) (i : ℕ) : ¬ Shows s.jobs i p.pid := by
  intro hi
  obtain ⟨q, hq, hqpid, hqslot⟩ := (h.exact i p.pid).mp hi
  rw [h.pids.eq_of_key hq hp hqpid, hslot] at hqslot
  cases hqslot

/-- The handler stops at the process's own slot, or at none that is active. -/
theorem Invariant.clearsOwn (h : Invariant s) {p : Process} (hp : p ∈ s.processes) :
    sigchldHandler s.jobs p.pid =
      match p.slot with
      | none => s.jobs
      | some i => s.jobs.modify i Job.clear := by
  cases hslot : p.slot with
  | some i =>
    have hshows : Shows s.jobs i p.pid := (h.exact i p.pid).mpr ⟨p, hp, rfl, hslot⟩
    have hbefore := h.first
    obtain ⟨job, hjob, -, hpid⟩ := id hshows
    have hfound : KeyedTable.slot Job.pid p.pid s.jobs = some i := by
      obtain ⟨hi, rfl⟩ := List.getElem?_eq_some_iff.mp hjob
      apply List.findIdx?_eq_some_iff_getElem.mpr
      refine ⟨hi, by simpa using hpid, fun k hk => ?_⟩
      have hlt : k < s.jobs.length := Nat.lt_trans hk hi
      have hne := hbefore k i p.pid hshows hk s.jobs[k] (List.getElem?_eq_getElem hlt)
      simpa using hne
    simp only [sigchldHandler, hfound]
  | none =>
    unfold sigchldHandler
    split
    · rfl
    · next k hk =>
      obtain ⟨hlt, hkey⟩ := KeyedTable.slot_eq_some hk
      have hidle : (s.jobs[k]).active = false := by
        by_contra hactive
        rw [Bool.not_eq_false] at hactive
        apply h.not_shown hp hslot k
        exact ⟨s.jobs[k], List.getElem?_eq_getElem hlt, hactive, hkey⟩
      apply List.ext_getElem?
      intro m
      by_cases hm : k = m
      · subst hm
        rw [List.getElem?_modify_eq, List.getElem?_eq_getElem hlt]
        simp [Job.clear, ← hidle]
      · rw [List.getElem?_modify_ne _ _ hm]

theorem invariant_initial : Invariant initial := by
  have hidle (i pid : ℕ) : ¬ Shows noJobs i pid := by
    rintro ⟨job, hjob, hactive, -⟩
    rw [List.eq_of_mem_replicate (List.mem_of_getElem? hjob)] at hactive
    cases hactive
  constructor
  · exact List.nodup_nil
  · simp [initial]
  · intro i pid
    exact iff_of_false (hidle i pid) (by simp [initial])
  · intro i j pid hj
    exact absurd hj (hidle j pid)

theorem invariant_fork (h : Invariant s) (he : Enabled s (.fork pid)) :
    Invariant (next s (.fork pid)) := by
  constructor
  · have hfresh : pid ∉ s.processes.map Process.pid := by
      intro hm
      obtain ⟨p, hp, hpid⟩ := List.mem_map.mp hm
      exact he p hp hpid
    simp only [next, KeyedTable.Distinct, List.map_append, List.map_singleton]
    rw [← List.concat_eq_append]
    exact List.Nodup.concat hfresh h.pids
  · intro p hp hadded
    rcases List.mem_append.mp hp with hp | hp
    · exact h.unseen p hp hadded
    · rw [List.mem_singleton.mp hp]
  · intro i q
    rw [show (next s (.fork pid)).jobs = s.jobs from rfl, h.exact i q]
    simp [next, or_and_right, exists_or]
  · exact h.first

theorem Invariant.without (h : Invariant s) (p : Process) : KeyedTable.Distinct Process.pid
    (s.processes.filter fun q => q.pid ≠ p.pid) := h.pids.sublist (List.filter_sublist.map _)

/-- A process without a slot may go. -/
theorem Invariant.forget (h : Invariant s) {p : Process} (hp : p ∈ s.processes)
    (hslot : p.slot = none) :
    Invariant { s with processes := s.processes.filter fun q => q.pid ≠ p.pid } := by
  refine ⟨h.without p, fun q hq => h.unseen q (List.mem_of_mem_filter hq), ?_, h.first⟩
  intro i q
  rw [h.exact i q]
  constructor
  · rintro ⟨r, hr, hrpid, hrslot⟩
    refine ⟨r, List.mem_filter.mpr ⟨hr, ?_⟩, hrpid, hrslot⟩
    apply decide_eq_true
    intro heq
    rw [h.pids.eq_of_key hr hp heq, hslot] at hrslot
    cases hrslot
  · rintro ⟨r, hr, hrpid, hrslot⟩
    exact ⟨r, List.mem_of_mem_filter hr, hrpid, hrslot⟩

/-- A process with a slot may go when its slot is cleared. -/
theorem Invariant.release (h : Invariant s) {p : Process} (hp : p ∈ s.processes)
    (hslot : p.slot = some i) :
    Invariant ⟨s.jobs.modify i Job.clear, s.processes.filter fun q => q.pid ≠ p.pid⟩ := by
  have hown : Shows s.jobs i p.pid := (h.exact i p.pid).mpr ⟨p, hp, rfl, hslot⟩
  refine ⟨h.without p, fun q hq => h.unseen q (List.mem_of_mem_filter hq), ?_, ?_⟩
  · intro j q
    rw [shows_clear, h.exact j q]
    constructor
    · rintro ⟨hj, r, hr, hrpid, hrslot⟩
      refine ⟨r, List.mem_filter.mpr ⟨hr, ?_⟩, hrpid, hrslot⟩
      apply decide_eq_true
      intro heq
      rw [h.pids.eq_of_key hr hp heq, hslot] at hrslot
      exact hj (Option.some.inj hrslot).symm
    · rintro ⟨r, hr, hrpid, hrslot⟩
      obtain ⟨hrmem, hne⟩ := List.mem_filter.mp hr
      refine ⟨?_, r, hrmem, hrpid, hrslot⟩
      rintro rfl
      obtain ⟨job, hjob, -, hpid⟩ := hown
      obtain ⟨job', hjob', -, hpid'⟩ := (h.exact j r.pid).mpr ⟨r, hrmem, rfl, hrslot⟩
      rw [hjob] at hjob'
      cases hjob'
      exact of_decide_eq_true hne (hpid'.symm.trans hpid)
  · intro j k q hk hjk job hjob
    obtain ⟨old, hold, rfl⟩ := KeyedTable.modify_some hjob
    have hne := h.first j k q (shows_clear.mp hk).2 hjk old hold
    split
    · exact hne
    · exact hne

theorem invariant_reap (h : Invariant s) (he : Enabled s (.reap pid)) :
    Invariant (next s (.reap pid)) := by
  obtain ⟨p, hp, rfl⟩ := he
  simp only [next, h.clearsOwn hp]
  cases hslot : p.slot with
  | none => exact h.forget hp hslot
  | some i => exact h.release hp hslot

theorem mem_added {p q : Process} (hp : p ∈ s.processes) {slot : Option ℕ} :
    (q ∈ s.processes.map fun r => if r.pid = p.pid then ⟨p.pid, true, slot⟩ else r) ↔
      q = ⟨p.pid, true, slot⟩ ∨ q ∈ s.processes ∧ q.pid ≠ p.pid := by
  constructor
  · intro hq
    obtain ⟨r, hr, rfl⟩ := List.mem_map.mp hq
    by_cases heq : r.pid = p.pid
    · simp [heq]
    · simp [heq, hr]
  · rintro (rfl | ⟨hq, hne⟩)
    · exact List.mem_map.mpr ⟨p, hp, by simp⟩
    · exact List.mem_map.mpr ⟨q, hq, by simp [hne]⟩

theorem shows_addJob (jobs : List Job) (pid : ℕ) (cmd : List Byte) (i q : ℕ) :
    Shows (addJob jobs pid cmd) i q ↔ pid = q ∧ freeSlot jobs = some i ∨ Shows jobs i q := by
  unfold addJob
  split
  · next hfree => simp [hfree]
  · next k hfree =>
    obtain ⟨hk, hidle, -⟩ := freeSlot_some hfree
    rw [shows_set hk, hfree, Option.some.injEq]
    by_cases hik : i = k
    · subst hik
      simp [hidle q, eq_comm]
    · simp [hik, Ne.symm hik]

theorem addJob_first (h : Invariant s) {p : Process} (hp : p ∈ s.processes)
    (hslot : p.slot = none) (cmd : List Byte) {i j q : ℕ}
    (hj : Shows (addJob s.jobs p.pid cmd) j q) (hij : i < j) :
    ∀ job ∈ (addJob s.jobs p.pid cmd)[i]?, job.pid ≠ q := by
  intro job hjob
  unfold addJob at hj hjob
  split at hj
  · next hfree =>
    rw [hfree] at hjob
    exact h.first i j q hj hij job hjob
  · next k hfree =>
    rw [hfree] at hjob
    obtain ⟨hk, -, hbefore⟩ := freeSlot_some hfree
    rcases (shows_set hk).mp hj with ⟨rfl, rfl⟩ | ⟨hne, hold⟩
    · -- the slots before the new one are active, so they have other numbers
      have hjob' : job ∈ s.jobs[i]? := by
        simpa only [List.getElem?_set_ne (Ne.symm (Nat.ne_of_lt hij))] using hjob
      intro hpid
      exact h.not_shown hp hslot i (hpid ▸ hbefore i hij job hjob')
    · by_cases hik : k = i
      · subst hik
        simp only [List.getElem?_set_self hk, Option.mem_def, Option.some.injEq] at hjob
        subst hjob
        rintro rfl
        exact h.not_shown hp hslot j hold
      · have hjob' : job ∈ s.jobs[i]? := by
          simpa only [List.getElem?_set_ne hik] using hjob
        exact h.first i j q hold hij job hjob'

theorem invariant_add (h : Invariant s) {cmd : List Byte} (he : Enabled s (.add pid cmd)) :
    Invariant (next s (.add pid cmd)) := by
  obtain ⟨p, hp, rfl, hadded⟩ := he
  have hslot := h.unseen p hp hadded
  constructor
  · have hmap : (next s (.add p.pid cmd)).processes.map Process.pid =
        s.processes.map Process.pid := by
      simp only [next, List.map_map]
      apply List.map_congr_left
      intro r _
      by_cases heq : r.pid = p.pid
      · simp [heq]
      · simp [heq]
    rw [KeyedTable.Distinct, hmap]
    exact h.pids
  · intro q hq hqadded
    rcases (mem_added hp).mp hq with rfl | ⟨hq, -⟩
    · cases hqadded
    · exact h.unseen q hq hqadded
  · intro i q
    simp only [next, shows_addJob, mem_added hp, h.exact i q]
    constructor
    · rintro (⟨rfl, hfree⟩ | ⟨r, hr, hrpid, hrslot⟩)
      · exact ⟨_, Or.inl rfl, rfl, hfree⟩
      · refine ⟨r, Or.inr ⟨hr, fun heq => ?_⟩, hrpid, hrslot⟩
        rw [h.pids.eq_of_key hr hp heq, hslot] at hrslot
        cases hrslot
    · rintro ⟨r, rfl | ⟨hr, -⟩, hrpid, hrslot⟩
      · exact Or.inl ⟨hrpid, hrslot⟩
      · exact Or.inr ⟨r, hr, hrpid, hrslot⟩
  · intro i j q hj hij
    exact addJob_first h hp hslot cmd hj hij

theorem invariant_next (h : Invariant s) (he : Enabled s e) : Invariant (next s e) := by
  cases e with
  | fork pid => exact invariant_fork h he
  | add pid cmd => exact invariant_add h he
  | reap pid => exact invariant_reap h he
  | wait pid =>
    obtain ⟨p, hp, rfl, hadded⟩ := he
    exact h.forget hp (h.unseen p hp hadded)

theorem invariant_run {es : List Event} (h : machine.Valid es) : Invariant (machine.run es) :=
  Machine.invariant invariant_initial (fun _ _ => invariant_next) h

theorem Invariant.clears (h : Invariant s) : ClearsOwn s e := by
  cases e with
  | reap pid =>
    rintro p hp rfl
    exact h.clearsOwn hp
  | _ => trivial

/-- Whatever the order and however numbers are used again, the table is right and each reaped
process clears its own slot only. -/
theorem jobs_tracked {es : List Event} (h : machine.Valid es) :
    TableRight (machine.run es) ∧ machine.Along ClearsOwn es := by
  refine ⟨(invariant_run h).tableRight, ?_⟩
  apply (Machine.along_congr (D := machine.Enabled) (fun es e hv _ he => ?_) h h).mpr h
  exact iff_of_true (invariant_run hv).clears he

/-- The number 7 is used again, in the foreground and then in the background, while a slot still
has it from before. -/
def reuse : List Event :=
  [.fork 7, .add 7 (ascii "sleep"), .fork 8, .add 8 (ascii "sleep"), .reap 7, .fork 7, .reap 7,
    .fork 7, .add 7 (ascii "ls"), .reap 8, .reap 7]

theorem jobs_tracked_reuse : TableRight (machine.run reuse) ∧ machine.Along ClearsOwn reuse :=
  jobs_tracked (by decide +kernel)

end BackgroundJobs
