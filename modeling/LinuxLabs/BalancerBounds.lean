import LinuxLabs.AsyncLoadBalancer
import Mathlib.Data.Finset.Option

/-! # Which descriptors the asynchronous load balancer can look up (lab 13)
`connections[]` has as many entries as a batch of events and is indexed by descriptors. Here
`accept` may fail, and the kernel may return any descriptor that is not open, so the indices are
C's `int`s and `connections` is a map on them. -/
namespace BalancerBounds

open Execution
open AsyncLoadBalancer (maxEvents backendCount)

/-- `connection_t`; its buffer is never used. -/
structure Connection where
  clientFd : ℤ
  backendFd : ℤ
  deriving DecidableEq

/-- `openFds` is the kernel's table and `watched` the interest list of `epfd`. -/
structure State where
  connections : ℤ → Connection
  nextBackend : Fin backendCount
  openFds : Finset ℕ
  watched : Finset ℕ
  batch : List ℕ

inductive ReadResult where
  | data
  | failed
  deriving DecidableEq

/-- `accept` has the results of `accept` and of `create_backend_connection`, `none` for -1. -/
inductive Event where
  | poll (ready : List ℕ)
  | accept (client backend : Option ℕ)
  | serve (r : ReadResult)
  deriving DecidableEq

def fdOf (fd : Option ℕ) : ℤ :=
  match fd with
  | none => -1
  | some fd => fd

/-- `peer` in both branches of `main`. -/
def peer (s : State) (fd : ℕ) : ℤ :=
  if (s.connections fd).clientFd = fd then (s.connections fd).backendFd
  else (s.connections fd).clientFd

/-- `close` takes a descriptor off the interest list as well. -/
def close (s : State) (fd : ℤ) : State :=
  { s with
    openFds := s.openFds.filter fun x => (x : ℤ) ≠ fd
    watched := s.watched.filter fun x => (x : ℤ) ≠ fd }

/-- The four stores for a new session; `epoll_ctl` then fails for -1. -/
def connect (s : State) (client : Option ℕ) (backend : ℕ) : State :=
  let entry : Connection := ⟨fdOf client, backend⟩
  { s with
    connections := Function.update (Function.update s.connections (fdOf client) entry) backend entry
    openFds := insert backend (s.openFds ∪ client.toFinset)
    watched := insert backend (s.watched ∪ client.toFinset) }

def next (s : State) : Event → State
  | .poll ready => { s with batch := ready }
  | .accept _ none => { s with nextBackend := s.nextBackend + 1, batch := s.batch.tail }
  | .accept client (some backend) =>
    connect { s with nextBackend := s.nextBackend + 1, batch := s.batch.tail } client backend
  | .serve r =>
    match s.batch with
    | [] => s
    | fd :: rest =>
      match r with
      | .data => { s with batch := rest }
      | .failed => close (close { s with batch := rest } fd) (peer s fd)

def Enabled (listenFd : ℕ) (s : State) : Event → Prop
  | .poll ready => s.batch = [] ∧ ready.length ≤ maxEvents ∧ ready.Nodup ∧
    ∀ fd ∈ ready, fd ∈ s.watched
  | .accept client backend => s.batch.head? = some listenFd ∧
    (∀ fd ∈ client, fd ∉ s.openFds) ∧ (∀ fd ∈ backend, fd ∉ s.openFds ∧ some fd ≠ client)
  | .serve _ => ∃ fd ∈ s.batch.head?, fd ≠ listenFd

def initial (listenFd epfd : ℕ) : State :=
  ⟨fun _ => ⟨0, 0⟩, 0, {listenFd, epfd}, {listenFd}, []⟩

def machine (listenFd epfd : ℕ) : Machine State Event :=
  ⟨initial listenFd epfd, Enabled listenFd, next⟩

/-- The indices into `connections[]` that the step uses. -/
def indices (s : State) : Event → List ℤ
  | .poll _ => []
  | .accept _ none => []
  | .accept client (some backend) => [fdOf client, fdOf client, backend, backend]
  | .serve _ => s.batch.head?.toList.flatMap fun fd => [(fd : ℤ), fd]

def InBounds (s : State) (e : Event) : Prop := ∀ i ∈ indices s e, 0 ≤ i ∧ i < maxEvents

/-- A new session has a client, and both its descriptors are below `MAX_EVENTS`. -/
def Fits (_ : State) : Event → Prop
  | .accept client (some backend) => backend < maxEvents ∧ ∃ fd ∈ client, fd < maxEvents
  | _ => True

instance (listenFd epfd : ℕ) (s : State) (e : Event) :
    Decidable ((machine listenFd epfd).Enabled s e) := by
  cases e <;> simp only [machine, Enabled] <;> infer_instance

instance (s : State) (e : Event) : Decidable (InBounds s e) :=
  inferInstanceAs (Decidable (∀ i ∈ indices s e, _))

instance (s : State) (e : Event) : Decidable (Fits s e) := by
  unfold Fits
  split <;> infer_instance

/-- Every descriptor that can be reported, or has been, is below `MAX_EVENTS`. -/
structure Invariant (listenFd : ℕ) (s : State) : Prop where
  watched : ∀ fd ∈ s.watched, fd ≠ listenFd → fd < maxEvents
  batch : ∀ fd ∈ s.batch, fd ≠ listenFd → fd < maxEvents

variable {listenFd epfd : ℕ} {s : State} {e : Event}

theorem invariant_initial : Invariant listenFd (initial listenFd epfd) := by
  constructor
  · intro fd hfd hne
    exact absurd (Finset.mem_singleton.mp hfd) hne
  · intro fd hfd
    cases hfd

theorem Invariant.close (h : Invariant listenFd s) (fd : ℤ) : Invariant listenFd (close s fd) :=
  ⟨fun x hx => h.watched x (Finset.mem_filter.mp hx).1, h.batch⟩

theorem Invariant.tail (h : Invariant listenFd s) :
    ∀ fd ∈ s.batch.tail, fd ≠ listenFd → fd < maxEvents :=
  fun fd hfd => h.batch fd (List.mem_of_mem_tail hfd)

theorem invariant_next (h : Invariant listenFd s) (he : Enabled listenFd s e) (hf : Fits s e) :
    Invariant listenFd (next s e) := by
  cases e with
  | poll ready => exact ⟨h.watched, fun fd hfd => h.watched fd (he.2.2.2 fd hfd)⟩
  | accept client backend =>
    cases backend with
    | none => exact ⟨h.watched, h.tail⟩
    | some backend =>
      obtain ⟨hb, fd, hfd, hc⟩ := hf
      refine ⟨fun x hx hne => ?_, h.tail⟩
      rcases Finset.mem_insert.mp hx with rfl | hx
      · exact hb
      rcases Finset.mem_union.mp hx with hx | hx
      · exact h.watched x hx hne
      · have hx' : x = fd := Option.some.inj ((Option.mem_toFinset.mp hx).symm.trans hfd)
        rw [hx']
        exact hc
  | serve r =>
    simp only [next]
    split
    · exact h
    · next fd rest hbatch =>
      have hrest : Invariant listenFd { s with batch := rest } :=
        ⟨h.watched, fun x hx => h.batch x (by rw [hbatch]; exact List.mem_cons_of_mem _ hx)⟩
      split
      · exact hrest
      · exact (hrest.close _).close _

/-- A new session is looked up under what `accept` and `connect` returned, and an old one under a
descriptor that was reported. -/
theorem inBounds_iff_fits (h : Invariant listenFd s) (he : Enabled listenFd s e) :
    InBounds s e ↔ Fits s e := by
  cases e with
  | poll ready => exact iff_of_true (by simp [InBounds, indices]) trivial
  | accept client backend =>
    cases backend with
    | none => exact iff_of_true (by simp [InBounds, indices]) trivial
    | some backend =>
      cases client with
      | none => simp [InBounds, indices, Fits, fdOf]
      | some client =>
        simp only [InBounds, indices, Fits, fdOf, List.forall_mem_cons]
        simp
        omega
  | serve r =>
    obtain ⟨fd, hfd, hne⟩ := he
    have hlt := h.batch fd (List.mem_of_mem_head? hfd) hne
    refine iff_of_true (fun i hi => ?_) trivial
    have hi : i = fd := by simpa [indices, Option.mem_def.mp hfd] using hi
    omega

/-- The balancer stays inside `connections[]` exactly as long as no session is set up without a
client or with a descriptor of 128 or more. -/
theorem in_bounds_iff_fits (listenFd epfd : ℕ) (es : List Event)
    (h : (machine listenFd epfd).Valid es) :
    (machine listenFd epfd).Along InBounds es ↔ (machine listenFd epfd).Along Fits es :=
  Machine.along_iff_of_invariant invariant_initial (fun _ _ => invariant_next)
    (fun _ _ => inBounds_iff_fits) h

/-- A client that is served and leaves. -/
theorem in_bounds_session : (machine 3 4).Along InBounds
    [.poll [3], .accept (some 5) (some 6), .poll [5], .serve .data, .poll [6], .serve .failed] :=
  (in_bounds_iff_fits 3 4 _ (by decide)).mpr (by decide)

/-! ## Clients that stay -/

/-- They get the lowest descriptors there are. -/
def sessions (n : ℕ) : List Event :=
  (List.range n).flatMap fun i => [.poll [3], .accept (some (5 + 2 * i)) (some (6 + 2 * i))]

theorem sessions_succ (n : ℕ) : sessions (n + 1) =
    sessions n ++ [.poll [3]] ++ [.accept (some (5 + 2 * n)) (some (6 + 2 * n))] := by
  simp [sessions, List.range_succ]

theorem sessions_valid (n : ℕ) : (machine 3 4).Valid (sessions n) ∧
    ((machine 3 4).run (sessions n)).batch = [] ∧ 3 ∈ ((machine 3 4).run (sessions n)).watched ∧
    ∀ fd ∈ ((machine 3 4).run (sessions n)).openFds, fd < 5 + 2 * n := by
  induction n with
  | zero => decide
  | succ n ih =>
    obtain ⟨hv, hbatch, hwatched, hopen⟩ := ih
    have hpoll : Enabled 3 ((machine 3 4).run (sessions n)) (.poll [3]) :=
      ⟨hbatch, by decide, by simp, by simpa using hwatched⟩
    have haccept : Enabled 3 (next ((machine 3 4).run (sessions n)) (.poll [3]))
        (.accept (some (5 + 2 * n)) (some (6 + 2 * n))) := by
      refine ⟨rfl, fun fd hfd hin => ?_, fun fd hfd => ⟨fun hin => ?_, ?_⟩⟩
      · obtain rfl := Option.some.inj hfd
        exact Nat.lt_irrefl _ (hopen _ hin)
      · obtain rfl := Option.some.inj hfd
        have := hopen _ hin
        omega
      · obtain rfl := Option.some.inj hfd
        simp
    rw [sessions_succ, Machine.valid_concat, Machine.valid_concat,
      Machine.run_concat (sessions n ++ _), Machine.run_concat]
    refine ⟨⟨⟨hv, hpoll⟩, haccept⟩, rfl, ?_, fun fd hfd => ?_⟩
    · exact Finset.mem_insert_of_mem (Finset.mem_union_left _ hwatched)
    · rcases Finset.mem_insert.mp hfd with rfl | hfd
      · omega
      rcases Finset.mem_union.mp hfd with hfd | hfd
      · have := hopen fd hfd
        omega
      · obtain rfl := Option.some.inj (Option.mem_toFinset.mp hfd)
        omega

theorem sessions_fit_iff (n : ℕ) : (machine 3 4).Along Fits (sessions n) ↔ n ≤ 61 := by
  induction n with
  | zero => decide
  | succ n ih =>
    rw [sessions_succ, Machine.along_concat, Machine.along_concat, ih]
    simp [Fits, maxEvents]
    omega

/-- The backend of the 62nd session has descriptor 128; and `accept` may fail when its connection
is gone by then, while the backend is there. -/
theorem out_of_bounds :
    ((machine 3 4).Valid (sessions 62) ∧ ¬ (machine 3 4).Along InBounds (sessions 62)) ∧
    (machine 3 4).Valid [.poll [3], .accept none (some 5)] ∧
      ¬ (machine 3 4).Along InBounds [.poll [3], .accept none (some 5)] := by
  obtain ⟨hv, -⟩ := sessions_valid 62
  have hfull : ¬ (machine 3 4).Along Fits (sessions 62) := by
    rw [sessions_fit_iff]
    decide
  refine ⟨⟨hv, fun h => hfull ?_⟩, by decide, by decide⟩
  exact (Machine.along_iff_of_invariant invariant_initial (fun _ _ => invariant_next)
    (fun _ _ => inBounds_iff_fits) hv).mp h

end BalancerBounds
