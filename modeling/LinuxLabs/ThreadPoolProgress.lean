import LinuxLabs.ThreadPoolClients
import Mathlib.Algebra.BigOperators.Fin

/-! # What the thread-pool chat server waits for (lab 15)
Of its own accord it neither stops nor runs on: every wait leads to a client that does not send,
does not read or does not connect, and each of their actions is answered in a bounded number of
steps. The sections of the job queue are single steps here, so a signal never interrupts the thread
that holds its mutex; the handler that does waits for ever, see `ThreadPoolSignals`. -/
namespace ThreadPoolProgress

open Execution ThreadPoolServer ThreadPoolClients

variable {T : ℕ}

/-- What depends on a client or on the user. -/
def fromOutside : Event T → Bool
  | .signal | .signalClose => true
  | .main (.accept _) | .main (.acceptFailed _) => true
  | .worker _ (.recv _) | .worker _ (.send _) => true
  | _ => false

/-- The worker is in a `recv` or a `send` that has not returned. -/
def AwaitsClient : WorkerPc → Prop
  | .receiving _ => True
  | .broadcasting n msg (c :: _) sent => c.fd ≠ n.fd ∧ sent < msg.length
  | _ => False

def AwaitsMutex : WorkerPc → Prop
  | .adding _ | .locking _ _ | .removing _ => True
  | _ => False

/-! ## How much there is to do -/

/-- The steps a worker can make before it is back at a call that waits for a client. -/
def workerTodo (T : ℕ) : WorkerPc → ℕ
  | .exited | .receiving _ => 0
  | .popping => 1
  | .top => 2
  | .closing _ => 3
  | .removing _ => 4
  | .serving _ => 5
  | .adding _ => 6
  | .broadcasting _ _ rest _ => 6 + rest.length
  | .locking _ _ => 7 + T

def mainTodo : MainPc → ℕ
  | .exited | .accepting => 0
  | .sweeping => 1
  | .joining => 2
  | .closingQueue => 3
  | .closingListener => 4
  | .testing => 5
  | .pushing _ => 12

def todo (s : State T) : ℕ :=
  mainTodo s.main + 6 * s.jobs.length + ∑ w, workerTodo T (s.worker w)

/-- `send_all` does not run past the end of its buffer, and the main thread joins its workers behind
a closed queue. -/
structure Waiting (s : State T) : Prop where
  within : ∀ w n msg rest sent, s.worker w = .broadcasting n msg rest sent → sent ≤ msg.length
  closed : s.main = .joining ∨ s.main = .sweeping ∨ s.main = .exited → s.closed

theorem Waiting.stepped {s s₁ : State T} (h : Waiting s) {w : Fin T} {pc : WorkerPc}
    (hworker : s₁.worker = s.worker) (hmain : s₁.main = s.main) (hclosed : s₁.closed = s.closed)
    (hpc : ∀ n msg rest sent, pc = .broadcasting n msg rest sent → sent ≤ msg.length) :
    Waiting (s₁.setWorker w pc) := by
  refine ⟨fun v n msg rest sent hv => ?_, ?_⟩
  · rw [setWorker_worker, hworker] at hv
    by_cases hvw : v = w
    · subst v
      rw [Function.update_self] at hv
      exact hpc n msg rest sent hv
    · rw [Function.update_of_ne hvw] at hv
      exact h.within v n msg rest sent hv
  · change s₁.main = _ ∨ s₁.main = _ ∨ s₁.main = _ → s₁.closed
    rw [hmain, hclosed]
    exact h.closed

theorem Waiting.worker {s s' : State T} {w : Fin T} {e : WorkerEvent} (h : Waiting s)
    (st : WorkerStep s w e s') : Waiting s' := by
  cases st with
  | move e pc node listed before after text =>
    refine h.stepped rfl rfl rfl ?_
    rintro n msg rest sent rfl
    cases after
  | lock n msg at_ =>
    refine h.stepped rfl rfl rfl ?_
    rintro n' msg' rest sent hpc
    cases hpc
    exact Nat.zero_le _
  | send n msg c rest sent k at_ other fits =>
    refine h.stepped rfl rfl rfl ?_
    rintro n' msg' rest' sent' hpc
    cases hpc
    exact fits
  | interrupted => exact h
  | giveUp r n msg c rest sent at_ =>
    refine h.stepped rfl rfl rfl ?_
    rintro n' msg' rest' sent' hpc
    cases hpc
    exact Nat.zero_le _
  | advance n msg c rest sent at_ =>
    refine h.stepped rfl rfl rfl ?_
    rintro n' msg' rest' sent' hpc
    cases hpc
    exact Nat.zero_le _
  | pop | add | receive | unlock | remove | close => exact h.stepped rfl rfl rfl nofun

theorem Waiting.main {s : State T} (h : Waiting s) {e : MainEvent} (he : MainEnabled s s.main e) :
    Waiting (mainNext s s.main e) := by
  have hkeep (s' : State T) (hworker : s'.worker = s.worker)
      (hclosed : s'.main = .joining ∨ s'.main = .sweeping ∨ s'.main = .exited → s'.closed) :
      Waiting s' := by
    refine ⟨?_, hclosed⟩
    rw [hworker]
    exact h.within
  generalize hm : s.main = pc at he
  unfold MainEnabled at he
  split at he
  · refine hkeep _ rfl ?_
    rw [mainNext]
    split <;> simp [State.setMain]
  · exact hkeep _ rfl (by simp [mainNext])
  · refine hkeep _ rfl ?_
    rw [mainNext]
    split <;> simp [State.setMain]
  · exact hkeep _ rfl (by simp [mainNext])
  · exact hkeep _ rfl (by simp [mainNext, State.setMain])
  · exact hkeep _ rfl fun _ => rfl
  · exact hkeep _ rfl fun _ => h.closed (Or.inl hm)
  · exact hkeep _ rfl fun _ => h.closed (Or.inr (Or.inl hm))
  · exact he.elim

theorem next_waiting {s : State T} (h : Waiting s) {e : Event T} (he : Enabled s e) :
    Waiting (next s e) := by
  cases e with
  | signal => exact ⟨h.within, h.closed⟩
  | signalClose => exact ⟨h.within, fun _ => rfl⟩
  | main e => exact h.main he
  | worker w e => exact h.worker (worker_step he)

/-- Nothing can happen but what comes from outside. -/
def Blocked (s : State T) : Prop := ∀ e, Enabled s e → fromOutside e = true

theorem Blocked.not_enabled {s : State T} (hb : Blocked s) {e : Event T}
    (he : fromOutside e = false) : ¬ Enabled s e := by
  intro h
  rw [hb e h] at he
  cases he

theorem Blocked.sending {s : State T} (hb : Blocked s) (hw : Waiting s) {w : Fin T}
    {rest : List Node} (hc : (s.worker w).cursor = some rest) : AwaitsClient (s.worker w) := by
  have hunlock := hb.not_enabled (e := .worker w .unlock) rfl
  have hadvance := hb.not_enabled (e := .worker w .advance) rfl
  have hwithin := hw.within w
  simp only [Enabled] at hunlock hadvance
  cases hpc : s.worker w <;> rw [hpc] at hc hunlock hadvance hwithin <;> cases hc
  case broadcasting n msg sent =>
    cases rest with
    | nil => exact absurd trivial hunlock
    | cons c rest =>
      obtain ⟨hother, hunfinished⟩ := not_or.mp hadvance
      exact ⟨hother, Nat.lt_of_le_of_ne (hwithin n msg _ sent rfl) hunfinished⟩

/-- Who holds the mutex is in a `send`. -/
theorem Blocked.holder {s : State T} (hb : Blocked s) (hl : Listed s) (hw : Waiting s)
    (hm : s.clientsMutex ≠ none) : ∃ v, s.clientsMutex = some v ∧ AwaitsClient (s.worker v) := by
  obtain ⟨v, hv⟩ := Option.ne_none_iff_exists'.mp hm
  obtain ⟨rest, hrest⟩ := (hl.holder v).mp hv
  exact ⟨v, hv, hb.sending hw hrest⟩

/-- What a worker can be doing when nothing moves. -/
inductive Resting (s : State T) (w : Fin T) : Prop
  | exited (at_ : s.worker w = .exited)
  | client (at_ : AwaitsClient (s.worker w))
  | job (at_ : s.worker w = .popping) (queue : s.jobs = []) (open_ : s.closed = false)
  | mutex (at_ : AwaitsMutex (s.worker w)) (v : Fin T) (holder : s.clientsMutex = some v)
      (client : AwaitsClient (s.worker v))

theorem Blocked.worker {s : State T} (hb : Blocked s) (hl : Listed s) (hw : Waiting s)
    (w : Fin T) : Resting s w := by
  have hmutex (hat : AwaitsMutex (s.worker w)) (hm : s.clientsMutex ≠ none) : Resting s w := by
    obtain ⟨v, hv, hclient⟩ := hb.holder hl hw hm
    exact .mutex hat v hv hclient
  have hnot (e : WorkerEvent) (hin : fromOutside (.worker w e) = false) :
      ¬ WorkerEnabled s (s.worker w) e := hb.not_enabled hin
  have hcursor (rest : List Node) (hc : (s.worker w).cursor = some rest) := hb.sending hw hc
  cases hpc : s.worker w <;> rw [hpc] at hmutex hnot hcursor
  case top => exact absurd trivial (hnot .test rfl)
  case popping =>
    obtain ⟨hjobs, hclosed⟩ := not_or.mp (hnot .pop rfl)
    exact .job hpc (not_not.mp hjobs) (by simpa using hclosed)
  case adding n => exact hmutex trivial (hnot .add rfl)
  case serving n => exact absurd trivial (hnot .test rfl)
  case receiving n => exact .client (by rw [hpc]; trivial)
  case locking n msg => exact hmutex trivial (hnot .lock rfl)
  case broadcasting n msg rest sent => exact .client (by rw [hpc]; exact hcursor rest rfl)
  case removing n => exact hmutex trivial (hnot .remove rfl)
  case closing n => exact absurd trivial (hnot .close rfl)
  case exited => exact .exited hpc

theorem Blocked.main {s : State T} (hb : Blocked s) (hl : Listed s) (hw : Waiting s) :
    s.main = .accepting ∨ s.main = .exited ∨
      s.main = .joining ∧ ∃ w, AwaitsClient (s.worker w) := by
  have hnot (e : MainEvent) (hin : fromOutside (T := T) (.main e) = false) :
      ¬ MainEnabled s s.main e := hb.not_enabled hin
  have hclosed := hw.closed
  have hjoined := hl.joined
  cases hpc : s.main <;> rw [hpc] at hnot hclosed hjoined
  case testing => exact absurd trivial (hnot .test rfl)
  case accepting => exact Or.inl rfl
  case pushing n => exact absurd trivial (hnot .push rfl)
  case closingListener => exact absurd trivial (hnot .closeListener rfl)
  case closingQueue => exact absurd trivial (hnot .closeQueue rfl)
  case joining =>
    obtain ⟨w, hrunning⟩ := not_forall.mp (hnot .join rfl)
    refine Or.inr (Or.inr ⟨rfl, ?_⟩)
    cases hb.worker hl hw w with
    | exited at_ => exact absurd at_ hrunning
    | client at_ => exact ⟨w, at_⟩
    | job at_ queue open_ =>
      rw [hclosed (Or.inl rfl)] at open_
      cases open_
    | mutex at_ v holder client => exact ⟨v, client⟩
  case sweeping =>
    obtain ⟨v, hv, hclient⟩ := hb.holder hl hw (hnot .sweep rfl)
    rw [hjoined (Or.inl rfl) v] at hclient
    exact hclient.elim
  case exited => exact Or.inr (Or.inl rfl)

/-! ## Every run -/

/-- A client that stays and says nothing, and then the user's Ctrl-C. -/
def silentRun : List (Event 1) :=
  [.main .test, .main (.accept 4), .main .push, .worker 0 .test, .worker 0 .pop, .worker 0 .add,
    .worker 0 .test, .main .test, .signal, .signalClose, .main (.acceptFailed true), .main .test,
    .main .closeListener, .main .closeQueue]

end ThreadPoolProgress
