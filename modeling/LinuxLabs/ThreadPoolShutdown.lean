import LinuxLabs.ThreadPoolClients

/-! # Shutdown of the thread-pool chat server (lab 15)
What `close` is called on. Once `running` is 0 the workers take no more jobs, and `main`
closes what is on the client list, which is empty then; what is still in the queue stays
open. -/
namespace ThreadPoolShutdown

open Execution ThreadPoolServer ThreadPoolClients

variable {T : ℕ}

/-- What the loop at the end of `main` closes. -/
def sweepCloses (sockets : Fd → Option Socket) : List Node → List (Option Socket)
  | [] => []
  | c :: rest => sockets c.fd :: sweepCloses (Function.update sockets c.fd none) rest

/-- What each call of `close` in the step finds behind its descriptor. -/
def closes (s : State T) : Event T → List (Option Socket)
  | .main .closeListener => [s.sockets s.listenFd]
  | .main .sweep => sweepCloses s.sockets s.clients
  | .worker w .close => (s.worker w).node.toList.map fun n => s.sockets n.fd
  | _ => []

/-- Each connection that `accept` returned was closed by one call, and no call found its
descriptor closed. -/
def ClosedOnce (s : State T) (calls : List (Option Socket)) : Prop :=
  (∀ c < s.accepted, calls.count (some (.connection c)) = 1) ∧ none ∉ calls

/-- The last worker does not leave at the test of `running` with jobs in the queue, and none
is queued when all have left. -/
def Drained (s : State T) : Event T → Prop
  | .worker w .test => s.worker w = .top → s.running = false → s.jobs ≠ [] →
    ∃ v, v ≠ w ∧ s.worker v ≠ .exited
  | .main .push => ∃ w, s.worker w ≠ .exited
  | _ => True

instance (s : State T) (e : Event T) : Decidable (Drained s e) := by
  casesm* Event _, MainEvent, WorkerEvent <;> simp only [Drained] <;> infer_instance

/-! ## Where the open connections are -/

/-- `calls` are the calls of `close` so far. -/
structure Ledger (s : State T) (calls : List (Option Socket)) : Prop where
  safe : ThreadPoolClients.Invariant s
  owned : ∀ fd c, s.sockets fd = some (.connection c) → ∃ p, held s p = some ⟨fd, c⟩
  opened : ∀ fd c, s.sockets fd = some (.connection c) → some (.connection c) ∉ calls
  issued : ∀ c, some (.connection c) ∈ calls → c < s.accepted
  closed : ∀ c < s.accepted, (∀ fd, s.sockets fd ≠ some (.connection c)) →
    calls.count (some (.connection c)) = 1
  real : none ∉ calls

variable {s s' : State T} {calls : List (Option Socket)}

/-- A step that opens and closes nothing. -/
theorem Ledger.moved (h : Ledger s calls) (safe : ThreadPoolClients.Invariant s')
    (hsock : s'.sockets = s.sockets) (hacc : s'.accepted = s.accepted)
    (hheld : ∀ p n, held s p = some n → ∃ q, held s' q = some n) : Ledger s' calls where
  safe := safe
  owned fd c hc := by
    rw [hsock] at hc
    obtain ⟨p, hp⟩ := h.owned fd c hc
    exact hheld p _ hp
  opened fd c hc := by
    rw [hsock] at hc
    exact h.opened fd c hc
  issued c hc := by
    rw [hacc]
    exact h.issued c hc
  closed c hc hopen := by
    rw [hacc] at hc
    rw [hsock] at hopen
    exact h.closed c hc hopen
  real := h.real

/-- A worker that does not close its connection leaves every connection with somebody. -/
theorem worker_moved {w : Fin T} {e : WorkerEvent} (st : WorkerStep s w e s') (he : e ≠ .close) :
    s'.sockets = s.sockets ∧ s'.accepted = s.accepted ∧
      ∀ p n, held s p = some n → ∃ q, held s' q = some n := by
  have hstay (s₁ : State T) (pc : WorkerPc) (hn : pc.node = (s.worker w).node)
      (hheld : ∀ p, held s₁ p = held s p) (p : Place T) (n : Node) (hp : held s p = some n) :
      ∃ q, held (s₁.setWorker w pc) q = some n := by
    refine ⟨p, ?_⟩
    rw [held_setWorker]
    split
    · next hw =>
      rw [hw] at hp
      exact hn.trans hp
    · rw [hheld, hp]
  cases st with
  | move e pc node => exact ⟨rfl, rfl, hstay s pc node fun _ => rfl⟩
  | pop n jobs at_ queue =>
    refine ⟨rfl, rfl, fun p m hp => ?_⟩
    cases p with
    | main => exact ⟨.main, hp⟩
    | job i =>
      cases i with
      | zero =>
        refine ⟨.worker w, ?_⟩
        rw [held_setWorker, if_pos rfl]
        simpa [held, queue, WorkerPc.node] using hp
      | succ i =>
        refine ⟨.job i, ?_⟩
        simpa [held, queue, State.setWorker] using hp
    | worker v =>
      refine ⟨.worker v, ?_⟩
      by_cases hv : v = w
      · rw [hv] at hp
        simp [held, at_, WorkerPc.node] at hp
      · simpa [held, hv] using hp
  | receive n chunk at_ => exact ⟨rfl, rfl, hstay s _ (by rw [at_]; rfl) fun _ => rfl⟩
  | interrupted => exact ⟨rfl, rfl, fun p n hp => ⟨p, hp⟩⟩
  | giveUp r n msg c rest sent at_ =>
    exact ⟨rfl, rfl, hstay s _ (by rw [at_]; rfl) fun _ => rfl⟩
  | advance n msg c rest sent at_ =>
    exact ⟨rfl, rfl, hstay s _ (by rw [at_]; rfl) fun _ => rfl⟩
  | add n at_ => exact ⟨rfl, rfl, hstay _ _ (by rw [at_]; rfl) fun p => by cases p <;> rfl⟩
  | lock n msg at_ => exact ⟨rfl, rfl, hstay _ _ (by rw [at_]; rfl) fun p => by cases p <;> rfl⟩
  | send n msg c rest sent k at_ =>
    exact ⟨rfl, rfl, hstay _ _ (by rw [at_]; rfl) fun p => by cases p <;> rfl⟩
  | unlock n msg sent at_ =>
    exact ⟨rfl, rfl, hstay _ _ (by rw [at_]; rfl) fun p => by cases p <;> rfl⟩
  | remove n at_ => exact ⟨rfl, rfl, hstay _ _ (by rw [at_]; rfl) fun p => by cases p <;> rfl⟩
  | close n at_ => exact absurd rfl he

theorem Ledger.close (h : Ledger s calls) {w : Fin T} {n : Node} (at_ : s.worker w = .closing n)
    (safe : ThreadPoolClients.Invariant ((s.close n.fd).setWorker w .top)) :
    Ledger ((s.close n.fd).setWorker w .top) (calls ++ [s.sockets n.fd]) := by
  have hw : held s (.worker w) = some n := by simp [held, at_, WorkerPc.node]
  have hn : s.sockets n.fd = some (.connection n.conn) := h.safe.exclusive.named _ n hw
  have hsock {fd c} (hc : ((s.close n.fd).setWorker w .top).sockets fd = some (.connection c)) :
      fd ≠ n.fd ∧ s.sockets fd = some (.connection c) := by
    simp only [State.close, State.setWorker, Function.update_apply] at hc
    split at hc
    · cases hc
    · next hne => exact ⟨hne, hc⟩
  constructor
  · exact safe
  · intro fd c hc
    obtain ⟨hne, hold⟩ := hsock hc
    obtain ⟨p, hp⟩ := h.owned fd c hold
    refine ⟨p, ?_⟩
    rw [held_setWorker, if_neg]
    · cases p <;> exact hp
    · rintro rfl
      rw [hw] at hp
      cases hp
      exact hne rfl
  · intro fd c hc hm
    obtain ⟨hne, hold⟩ := hsock hc
    rcases List.mem_append.mp hm with hm | hm
    · exact h.opened fd c hold hm
    · rw [List.mem_singleton] at hm
      exact hne (h.safe.exclusive.unique fd n.fd c hold hm.symm)
  · intro c hm
    rcases List.mem_append.mp hm with hm | hm
    · exact h.issued c hm
    · rw [List.mem_singleton] at hm
      exact (h.safe.exclusive.issued n.fd c hm.symm).2
  · intro c hc hopen
    rw [List.count_append, hn]
    by_cases hcn : c = n.conn
    · subst hcn
      rw [List.count_eq_zero.mpr (h.opened n.fd n.conn hn)]
      simp
    · have hold : ∀ fd, s.sockets fd ≠ some (.connection c) := by
        intro fd hfd
        refine hopen fd ?_
        have hne : fd ≠ n.fd := by
          rintro rfl
          rw [hn] at hfd
          cases hfd
          exact hcn rfl
        simpa [State.close, State.setWorker, hne] using hfd
      rw [h.closed c hc hold]
      simp [Ne.symm hcn]
  · intro hm
    rcases List.mem_append.mp hm with hm | hm
    · exact h.real hm
    · rw [hn] at hm
      simp at hm

theorem Ledger.accept (h : Ledger s calls) (hm : s.main = .accepting) {fd : Fd}
    (hfree : s.sockets fd = none)
    (safe : ThreadPoolClients.Invariant (mainNext s .accepting (.accept fd))) :
    Ledger (mainNext s .accepting (.accept fd)) calls := by
  have hnew : (mainNext s .accepting (.accept fd)).sockets fd = some (.connection s.accepted) := by
    simp [mainNext]
  have hother {fd'} (hne : fd' ≠ fd) :
      (mainNext s .accepting (.accept fd)).sockets fd' = s.sockets fd' := by
    simp [mainNext, hne]
  constructor
  · exact safe
  · intro fd' c hc
    by_cases hfd : fd' = fd
    · subst hfd
      rw [hnew] at hc
      cases hc
      exact ⟨.main, rfl⟩
    · rw [hother hfd] at hc
      obtain ⟨p, hp⟩ := h.owned fd' c hc
      refine ⟨p, ?_⟩
      cases p with
      | main => simp [held, hm, accepting] at hp
      | job i => exact hp
      | worker w => exact hp
  · intro fd' c hc hmem
    by_cases hfd : fd' = fd
    · subst hfd
      rw [hnew] at hc
      cases hc
      exact absurd (h.issued _ hmem) (Nat.lt_irrefl _)
    · rw [hother hfd] at hc
      exact h.opened fd' c hc hmem
  · intro c hmem
    exact Nat.lt_succ_of_lt (h.issued c hmem)
  · intro c hc hopen
    have hne : c ≠ s.accepted := by
      rintro rfl
      exact hopen fd hnew
    refine h.closed c (Nat.lt_of_le_of_ne (Nat.le_of_lt_succ hc) hne) fun fd' hfd' => ?_
    by_cases hfd : fd' = fd
    · rw [hfd, hfree] at hfd'
      cases hfd'
    · exact hopen fd' ((hother hfd).trans hfd')
  · exact h.real

theorem Ledger.closeListener (h : Ledger s calls) (hm : s.main = .closingListener)
    (safe : ThreadPoolClients.Invariant (mainNext s .closingListener .closeListener)) :
    Ledger (mainNext s .closingListener .closeListener) (calls ++ [s.sockets s.listenFd]) := by
  have hlis : s.sockets s.listenFd = some .listener :=
    h.safe.exclusive.listener (by rw [hm]; rfl)
  rw [hlis]
  have hsock {fd c} : (mainNext s .closingListener .closeListener).sockets fd =
      some (.connection c) ↔ s.sockets fd = some (.connection c) := by
    simp only [mainNext, State.close, State.setMain, Function.update_apply]
    split
    · next hfd =>
      rw [hfd, hlis]
      simp
    · exact Iff.rfl
  constructor
  · exact safe
  · intro fd c hc
    obtain ⟨p, hp⟩ := h.owned fd c (hsock.mp hc)
    refine ⟨p, ?_⟩
    cases p with
    | main => simp [held, hm, accepting] at hp
    | job i => exact hp
    | worker w => exact hp
  · intro fd c hc hmem
    refine h.opened fd c (hsock.mp hc) ?_
    simpa using hmem
  · intro c hmem
    exact h.issued c (by simpa using hmem)
  · intro c hc hopen
    rw [List.count_append, h.closed c hc fun fd hfd => hopen fd (hsock.mpr hfd)]
    simp
  · simpa using h.real

theorem next_main_ledger (h : Ledger s calls) {e : MainEvent} (he : MainEnabled s s.main e)
    (safe : ThreadPoolClients.Invariant (mainNext s s.main e)) :
    Ledger (mainNext s s.main e) (calls ++ closes s (.main e)) := by
  have hstay {s'} (safe : ThreadPoolClients.Invariant s') (hsock : s'.sockets = s.sockets)
      (hacc : s'.accepted = s.accepted) (hjobs : s'.jobs = s.jobs) (hworker : s'.worker = s.worker)
      (hmain : accepting s.main = none) : Ledger s' (calls ++ []) := by
    rw [List.append_nil]
    refine h.moved safe hsock hacc fun p n hp => ⟨p, ?_⟩
    cases p with
    | main => simp [held, hmain] at hp
    | job i => simpa [held, hjobs] using hp
    | worker w => simpa [held, hworker] using hp
  generalize hm : s.main = pc at he safe ⊢
  unfold MainEnabled at he
  split at he
  · exact hstay safe rfl rfl rfl rfl (by rw [hm]; rfl)
  · rw [show closes s (.main (.accept _)) = [] from rfl, List.append_nil]
    exact h.accept hm he.2 safe
  · exact hstay safe rfl rfl rfl rfl (by rw [hm]; rfl)
  · next n =>
    rw [show closes s (.main .push) = [] from rfl, List.append_nil]
    refine h.moved safe rfl rfl fun p m hp => ?_
    cases p with
    | main =>
      refine ⟨.job s.jobs.length, ?_⟩
      simpa [held, hm, accepting, mainNext] using hp
    | job i =>
      refine ⟨.job i, ?_⟩
      have hi : i < s.jobs.length := (List.getElem?_eq_some_iff.mp hp).1
      simpa [held, mainNext, List.getElem?_append_left hi] using hp
    | worker w => exact ⟨.worker w, hp⟩
  · exact h.closeListener hm safe
  · exact hstay safe rfl rfl rfl rfl (by rw [hm]; rfl)
  · exact hstay safe rfl rfl rfl rfl (by rw [hm]; rfl)
  · have hswept : s.clients = [] := h.safe.listed.swept hm
    have hcalls : closes s (.main .sweep) = [] := by simp [closes, hswept, sweepCloses]
    rw [hcalls]
    exact hstay safe (by simp [mainNext, hswept]) rfl rfl rfl (by rw [hm]; rfl)
  · exact he.elim

theorem next_ledger (h : Ledger s calls) {e : Event T} (he : Enabled s e) :
    Ledger (next s e) (calls ++ closes s e) := by
  have safe : ThreadPoolClients.Invariant (next s e) := step_invariant h.safe he
  have hnone (hc : closes s e = []) (hl : Ledger (next s e) calls) :
      Ledger (next s e) (calls ++ closes s e) := by
    rw [hc, List.append_nil]
    exact hl
  cases e with
  | signal | signalClose =>
    exact hnone rfl (h.moved safe rfl rfl fun p n hp => ⟨p, by cases p <;> exact hp⟩)
  | worker w e =>
    by_cases hclose : e = .close
    · subst hclose
      generalize hpc : s.worker w = pc at he
      cases pc with
      | closing n =>
        simp only [Enabled, hpc] at he
        have hn : next s (.worker w .close) = (s.close n.fd).setWorker w .top := by
          simp [next, workerNext, hpc]
        have hc : closes s (.worker w .close) = [s.sockets n.fd] := by
          simp [closes, hpc, WorkerPc.node]
        rw [hn] at safe ⊢
        rw [hc]
        exact h.close hpc safe
      | _ => simp [Enabled, hpc, WorkerEnabled] at he
    · obtain ⟨hsock, hacc, hheld⟩ := worker_moved (worker_step he) hclose
      refine hnone ?_ (h.moved safe hsock hacc hheld)
      cases e with
      | close => exact absurd rfl hclose
      | _ => rfl
  | main e => exact next_main_ledger h he safe

theorem initial_ledger (listenFd : Fd) : Ledger (initial listenFd : State T) [] where
  safe := initial_invariant listenFd
  owned fd c hc := by simp [initial, Function.update_apply] at hc
  opened fd c hc := by simp
  issued c hc := by cases hc
  closed c hc := by simp [initial] at hc
  real := by simp

theorem run_ledger {listenFd : Fd} {es : List (Event T)} (h : (machine T listenFd).Valid es) :
    Ledger ((machine T listenFd).run es) ((machine T listenFd).observe closes es) :=
  Machine.invariant_observed (M := machine T listenFd) (initial_ledger listenFd)
    (fun _ _ _ hl he => next_ledger hl he) h

/-! ## What is left in the queue -/

/-- Nobody is left to take a job. -/
def Deserted (s : State T) : Prop := ∀ w, s.worker w = .exited

/-- No job was left behind. -/
def Cleared (s : State T) : Prop := Deserted s → s.jobs = []

theorem next_deserted (h : Deserted s) {e : Event T} (he : Enabled s e) :
    Deserted (next s e) ∧ s.jobs <+: (next s e).jobs := by
  cases e with
  | signal | signalClose => exact ⟨h, List.prefix_rfl⟩
  | worker w e => simp [Enabled, h w, WorkerEnabled] at he
  | main e =>
    simp only [Enabled] at he
    simp only [next]
    generalize s.main = pc at he
    unfold MainEnabled at he
    split at he <;>
      first | exact he.elim | exact ⟨h, List.prefix_rfl⟩ | exact ⟨h, List.prefix_append _ _⟩

/-- A worker leaves at the test of `running` or on a closed queue that is empty. -/
theorem worker_leaves {w : Fin T} {e : WorkerEvent} (he : Enabled s (.worker w e))
    (hx : (next s (.worker w e)).worker w = .exited) :
    (∀ v, v ≠ w → (next s (.worker w e)).worker v = s.worker v) ∧
      (next s (.worker w e)).jobs = s.jobs ∧
      (e = .test ∧ s.worker w = .top ∧ s.running = false ∨ s.jobs = []) := by
  have halive : s.worker w ≠ .exited := by
    intro hw
    simp [Enabled, hw, WorkerEnabled] at he
  have hset {s₁ : State T} {pc : WorkerPc} (hpc : pc ≠ .exited)
      (hx : (s₁.setWorker w pc).worker w = .exited) : False := by
    rw [setWorker_worker, Function.update_self] at hx
    exact hpc hx
  have hothers (v : Fin T) (hv : v ≠ w) :
      (s.setWorker w .exited).worker v = s.worker v := Function.update_of_ne hv _ _
  simp only [Enabled] at he
  simp only [next] at hx ⊢
  generalize hpc : s.worker w = pc at he hx ⊢
  unfold WorkerEnabled at he
  split at he
  · simp only [workerNext] at hx ⊢
    split at hx
    · exact (hset (by simp) hx).elim
    · next hrun =>
      rw [if_neg hrun]
      exact ⟨hothers, rfl, Or.inl ⟨trivial, trivial, Bool.eq_false_iff.mpr hrun⟩⟩
  · simp only [workerNext] at hx ⊢
    split at hx
    · next hj => exact ⟨hothers, rfl, Or.inr hj⟩
    · exact (hset (by simp) hx).elim
  · exact (hset (by simp) hx).elim
  · simp only [workerNext] at hx
    split at hx <;> exact (hset (by simp) hx).elim
  · next n r => cases r <;> exact (hset (by simp) hx).elim
  · exact (hset (by simp) hx).elim
  · next r =>
    cases r with
    | interrupted => exact absurd (show s.worker w = .exited from hx) halive
    | _ => exact (hset (by simp) hx).elim
  · exact (hset (by simp) hx).elim
  · exact (hset (by simp) hx).elim
  · exact (hset (by simp) hx).elim
  · exact (hset (by simp) hx).elim
  · exact he.elim

/-- Jobs are left behind exactly by the steps that are not `Drained`. -/
theorem next_cleared {e : Event T} (he : Enabled s e) :
    Cleared (next s e) ↔ Cleared s ∧ Drained s e := by
  constructor
  · intro hnext
    constructor
    · intro hd
      obtain ⟨hd', hjobs⟩ := next_deserted hd he
      rw [hnext hd'] at hjobs
      exact List.prefix_nil.mp hjobs
    · unfold Drained
      split
      · next w =>
        intro htop hrun hjobs
        by_contra hlast
        push Not at hlast
        have hsame : (next s (.worker w .test)).jobs = s.jobs := by
          simp [next, workerNext, htop, State.setWorker]
        refine hjobs (hsame.symm.trans (hnext fun v => ?_))
        by_cases hv : v = w
        · simp [hv, next, workerNext, htop, hrun]
        · simpa [next, workerNext, htop, hrun, hv] using hlast v hv
      · by_contra hlast
        push Not at hlast
        have hjobs := hnext (next_deserted hlast he).1
        simp only [Enabled] at he
        simp only [next] at hjobs
        generalize s.main = pc at he hjobs
        cases pc with
        | pushing n => simp [mainNext] at hjobs
        | _ => exact he
      · trivial
  · rintro ⟨hcleared, hdrained⟩ hd
    cases e with
    | signal | signalClose => exact hcleared hd
    | main e =>
      have hold : Deserted s := by
        intro w
        have hw := hd w
        simp only [next] at hw
        simp only [Enabled] at he
        generalize s.main = pc at he hw
        unfold MainEnabled at he
        split at he <;> first | exact he.elim | exact hw
      cases e with
      | push =>
        obtain ⟨w, hw⟩ := hdrained
        exact absurd (hold w) hw
      | _ =>
        have hjobs := hcleared hold
        simp only [next]
        simp only [Enabled] at he
        generalize s.main = pc at he
        cases pc <;> first | exact he.elim | exact hjobs
    | worker w e =>
      obtain ⟨hothers, hjobs, hleave⟩ := worker_leaves he (hd w)
      rw [hjobs]
      rcases hleave with ⟨rfl, htop, hrun⟩ | hempty
      · by_contra hne
        obtain ⟨v, hv, halive⟩ := hdrained htop hrun hne
        rw [← hothers v hv] at halive
        exact halive (hd v)
      · exact hempty

/-- At the end of `main` every accepted connection has been closed exactly once if and only if
the run left no job behind. -/
theorem closed_once_iff (T : ℕ) (listenFd : Fd) (es : List (Event T))
    (h : (machine T listenFd).Valid es) (hend : ((machine T listenFd).run es).main = .exited) :
    ClosedOnce ((machine T listenFd).run es) ((machine T listenFd).observe closes es) ↔
      (machine T listenFd).Along Drained es := by
  have hl := run_ledger h
  have hdeserted : Deserted ((machine T listenFd).run es) := hl.safe.listed.joined (Or.inr hend)
  have hclear : (machine T listenFd).Along Drained es ↔ Cleared ((machine T listenFd).run es) :=
    Machine.along_iff (fun _ => rfl) (fun _ _ _ he => next_cleared he) h
  rw [hclear]
  generalize (machine T listenFd).run es = s at hl hend hdeserted
  constructor
  · rintro ⟨honce, -⟩ -
    refine List.eq_nil_iff_forall_not_mem.mpr fun n hn => ?_
    obtain ⟨i, hi⟩ := List.mem_iff_getElem?.mp hn
    have hopen := hl.safe.exclusive.named (.job i) n hi
    have hcount := honce n.conn (hl.safe.exclusive.issued _ _ hopen).2
    rw [List.count_eq_zero.mpr (hl.opened _ _ hopen)] at hcount
    cases hcount
  · intro hcleared
    refine ⟨fun c hc => hl.closed c hc fun fd hfd => ?_, hl.real⟩
    obtain ⟨p, hp⟩ := hl.owned fd c hfd
    cases p with
    | main => simp [held, hend, accepting] at hp
    | job i => simp [held, hcleared hdeserted] at hp
    | worker w => simp [held, hdeserted w, WorkerPc.node] at hp

/-- One client is served when the signal comes, the next one is popped after it. -/
theorem closed_once_two_clients :
    let es : List (Event 2) := [.main .test, .main (.accept 4), .main .push, .worker 0 .test,
      .worker 0 .pop, .worker 0 .add, .worker 0 .test, .worker 1 .test, .main .test,
      .main (.accept 5), .main .push, .signal, .signalClose, .worker 1 .pop, .worker 1 .add,
      .worker 1 .test, .worker 1 .remove, .worker 1 .close, .worker 1 .test,
      .worker 0 (.recv .retry), .worker 0 .test, .worker 0 .remove, .worker 0 .close,
      .worker 0 .test, .main .test, .main .closeListener, .main .closeQueue, .main .join,
      .main .sweep]
    ClosedOnce ((machine 2 3).run es) ((machine 2 3).observe closes es) := by
  intro es
  have hv : (machine 2 3).Valid es := by decide +kernel
  have hend : ((machine 2 3).run es).main = .exited := by decide +kernel
  exact (closed_once_iff 2 3 es hv hend).mpr (by decide +kernel)

/-- The only worker serves a client when the signal comes; the one that waits in the queue is
never closed. -/
theorem waiting_client_left_open :
    let es : List (Event 1) := [.main .test, .main (.accept 4), .main .push, .worker 0 .test,
      .worker 0 .pop, .worker 0 .add, .worker 0 .test, .main .test, .main (.accept 5),
      .main .push, .main .test, .signal, .signalClose, .main (.acceptFailed true), .main .test,
      .main .closeListener, .main .closeQueue, .worker 0 (.recv .hangup), .worker 0 .remove,
      .worker 0 .close, .worker 0 .test, .main .join, .main .sweep]
    (machine 1 3).Valid es ∧ ((machine 1 3).run es).main = .exited ∧
      ((machine 1 3).run es).sockets 5 = some (.connection 1) ∧
      ¬ ClosedOnce ((machine 1 3).run es) ((machine 1 3).observe closes es) := by
  intro es
  have hv : (machine 1 3).Valid es := by decide +kernel
  have hend : ((machine 1 3).run es).main = .exited := by decide +kernel
  refine ⟨hv, hend, by decide +kernel, fun honce => ?_⟩
  have hcount := honce.1 1 (by decide +kernel)
  revert hcount
  decide +kernel

end ThreadPoolShutdown
