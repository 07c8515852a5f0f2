import LinuxLabs.CString
import LinuxLabs.ChildProcess
import LinuxLabs.KeyedTable

/-! # The job table of the job-control shells (labs 11 and 12)
Both shells append to an array that never shrinks and search it from the front, one by
process number and one by process group; the SIGCHLD handlers record the same states. -/
namespace JobTable

open CString ChildProcess

def maxJobs : ℕ := 64

inductive JobState where
  | running
  | stopped
  | done
  deriving DecidableEq

/-- `job_t`; `key` is its `pid` in lab 11 and its `pgid` in lab 12. -/
structure Job (κ : Type) (cmdSize : ℕ) where
  key : κ
  cmd : CharArray cmdSize
  state : JobState
  deriving DecidableEq

variable {κ : Type} {cmdSize : ℕ}

def find [DecidableEq κ] (jobs : List (Job κ cmdSize)) (key : κ) : Option ℕ :=
  KeyedTable.slot Job.key key jobs

def add [NeZero cmdSize] (jobs : List (Job κ cmdSize)) (key : κ) (cmd : List Byte)
    (st : JobState) : List (Job κ cmdSize) :=
  if jobs.length < maxJobs then jobs ++ [⟨key, CharArray.print cmd, st⟩] else jobs

def setState (jobs : List (Job κ cmdSize)) (idx : ℕ) (st : JobState) : List (Job κ cmdSize) :=
  jobs.modify idx fun job => { job with state := st }

/-- The state the handler gives a job for a status. -/
def recorded : Status → JobState
  | .stopped => .stopped
  | .continued => .running
  | .exited => .done

def record [DecidableEq κ] (jobs : List (Job κ cmdSize)) (key : κ) (st : Status) :
    List (Job κ cmdSize) :=
  match find jobs key with
  | none => jobs
  | some idx => setState jobs idx (recorded st)

/-! The main loops read a line alike. -/

def isBuiltin (line : List Byte) : Bool :=
  line = ascii "exit" ∨ line = ascii "jobs" ∨ strncmp line (ascii "fg ") 3 ∨
    strncmp line (ascii "bg ") 3

def isBackground (line : List Byte) : Bool := line.getLast? = (ascii "&").head?

section

variable {jobs : List (Job κ cmdSize)} {key : κ} {st : Status} {k idx : ℕ}
  {job : Job κ cmdSize}

theorem setState_length (jobs : List (Job κ cmdSize)) (idx : ℕ) (st : JobState) :
    (setState jobs idx st).length = jobs.length := List.length_modify ..

theorem add_keys [NeZero cmdSize] (jobs : List (Job κ cmdSize)) (key : κ) (cmd : List Byte)
    (st : JobState) : (add jobs key cmd st).map Job.key =
      if (jobs.map Job.key).length < maxJobs then jobs.map Job.key ++ [key]
      else jobs.map Job.key := by
  rw [add, List.length_map]
  split
  · rw [List.map_append]
    rfl
  · rfl

theorem setState_keys (jobs : List (Job κ cmdSize)) (idx : ℕ) (st : JobState) :
    (setState jobs idx st).map Job.key = jobs.map Job.key :=
  KeyedTable.map_modify (by intro job; rfl) jobs idx

theorem setState_some {st : JobState} (h : (setState jobs idx st)[k]? = some job) :
    ∃ old, jobs[k]? = some old ∧ job.key = old.key ∧
      job.state = if idx = k then st else old.state := by
  obtain ⟨old, hold, rfl⟩ := KeyedTable.modify_some h
  refine ⟨old, hold, ?_⟩
  split <;> exact ⟨rfl, rfl⟩

variable [DecidableEq κ]

theorem find_some (h : find jobs key = some k) : ∃ job, jobs[k]? = some job ∧ job.key = key := by
  obtain ⟨hk, hkey⟩ := KeyedTable.slot_eq_some h
  exact ⟨jobs[k], List.getElem?_eq_getElem hk, hkey⟩

theorem find_ne_none (h : jobs[k]? = some job) : find jobs job.key ≠ none :=
  fun hn => KeyedTable.slot_eq_none.mp hn (List.mem_map_of_mem (List.mem_of_getElem? h))

theorem record_length (jobs : List (Job κ cmdSize)) (key : κ) (st : Status) :
    (record jobs key st).length = jobs.length := by
  unfold record
  split
  · rfl
  · exact setState_length ..

theorem record_keys (jobs : List (Job κ cmdSize)) (key : κ) (st : Status) :
    (record jobs key st).map Job.key = jobs.map Job.key := by
  unfold record
  split
  · rfl
  · exact setState_keys ..

theorem record_some (h : (record jobs key st)[k]? = some job) :
    ∃ old, jobs[k]? = some old ∧ job.key = old.key ∧
      job.state = if find jobs key = some k then recorded st else old.state := by
  unfold record at h
  split at h
  · next hf => exact ⟨job, h, rfl, by rw [hf]; rfl⟩
  · next idx hf =>
    obtain ⟨old, hold, hkey, hstate⟩ := setState_some h
    refine ⟨old, hold, hkey, ?_⟩
    rw [hf, hstate]
    simp only [Option.some.injEq]

end

end JobTable
