import LinuxLabs.Execution
import Mathlib.Algebra.GroupWithZero.Nat
import Mathlib.Data.Fin.Basic
import Mathlib.Data.List.Nodup
import Mathlib.Logic.Function.Basic

/-! # The asynchronous load balancer (lab 13)
One thread handles the events of an `epoll_wait` batch one by one. A session is a client
descriptor and a backend descriptor; its number is history, and `connections[]` keeps
what was last written for each descriptor. -/
namespace AsyncLoadBalancer

open Execution

abbrev Fd := ℕ
abbrev Session := ℕ

abbrev backendCount : ℕ := 3
instance : NeZero backendCount := ⟨by decide⟩
def maxEvents : ℕ := 128
def bufferSize : ℕ := 1024

/-- What an open descriptor belongs to; `server` is the listening and the epoll descriptor. -/
inductive Owner where
  | server
  | session (x : Session)
  deriving DecidableEq

/-- `connection_t`; its buffer is never used. -/
structure Connection where
  clientFd : Fd
  backendFd : Fd
  deriving DecidableEq

/-- An entry of `events[]`, with the session it was reported for. -/
inductive Ready where
  | listener
  | data (fd : Fd) (x : Session)
  deriving DecidableEq

structure State where
  listenFd : Fd
  owner : Fd → Option Owner
  connections : Fd → Connection
  nextBackend : Fin backendCount
  batch : List Ready
  sessions : ℕ

def initial (listenFd epfd : Fd) : State where
  listenFd := listenFd
  owner := Function.update (Function.update (fun _ => none) listenFd (some .server)) epfd
    (some .server)
  connections := fun _ => ⟨0, 0⟩
  nextBackend := 0
  batch := []
  sessions := 0

def Ready.fd (listenFd : Fd) : Ready → Fd
  | .listener => listenFd
  | .data fd _ => fd

/-- The descriptor recorded as the other end of `fd`. -/
def peer (s : State) (fd : Fd) : Fd :=
  if (s.connections fd).clientFd = fd then (s.connections fd).backendFd
  else (s.connections fd).clientFd

inductive ReadResult where
  | data (bytes : List UInt8)
  | failed
  deriving DecidableEq

inductive Call where
  | read (fd : Fd)
  | write (fd : Fd) (bytes : List UInt8)
  | close (fd : Fd)
  deriving DecidableEq

def Call.fd : Call → Fd
  | .read fd => fd
  | .write fd _ => fd
  | .close fd => fd

/-- The calls the data path makes for an event on `fd`, by what `read` returns. -/
def calls (s : State) (fd : Fd) : ReadResult → List Call
  | .data bytes => [.read fd, .write (peer s fd) bytes]
  | .failed => [.read fd, .close fd, .close (peer s fd)]

/-- `accept`, `socket` and `connect` for the client and its backend. -/
inductive Event where
  | poll (ready : List Ready)
  | accept (client backend : Fd) (connected : Bool)
  | serve (r : ReadResult)
  deriving DecidableEq

def Ready.Reported (s : State) : Ready → Prop
  | .listener => True
  | .data fd x => s.owner fd = some (.session x)

def ReadResult.Possible (source : Option Owner) : ReadResult → Prop
  | .data bytes => source ≠ none ∧ bytes ≠ [] ∧ bytes.length ≤ bufferSize
  | .failed => True

def Enabled (s : State) : Event → Prop
  | .poll ready => s.batch = [] ∧ ready.length ≤ maxEvents ∧
    (ready.map (Ready.fd s.listenFd)).Nodup ∧ ∀ r ∈ ready, r.Reported s
  | .accept client backend _ =>
    match s.batch with
    | .listener :: _ => client < maxEvents ∧ backend < maxEvents ∧ client ≠ backend ∧
      s.owner client = none ∧ s.owner backend = none
    | _ => False
  | .serve r =>
    match s.batch with
    | .data fd _ :: _ => r.Possible (s.owner fd)
    | _ => False

def close (owner : Fd → Option Owner) (fd : Fd) : Fd → Option Owner := Function.update owner fd none

def next (s : State) : Event → State
  | .poll ready => { s with batch := ready }
  | .accept client backend connected =>
    if connected then
      { s with
        owner := Function.update (Function.update s.owner client (some (.session s.sessions)))
          backend (some (.session s.sessions))
        connections := Function.update (Function.update s.connections client ⟨client, backend⟩)
          backend ⟨client, backend⟩
        nextBackend := s.nextBackend + 1
        batch := s.batch.tail
        sessions := s.sessions + 1 }
    else
      { s with nextBackend := s.nextBackend + 1, batch := s.batch.tail }
  | .serve r =>
    match s.batch with
    | .data fd _ :: rest =>
      match r with
      | .data _ => { s with batch := rest }
      | .failed => { s with owner := close (close s.owner fd) (peer s fd), batch := rest }
    | _ => s

def machine (listenFd epfd : Fd) : Machine State Event := ⟨initial listenFd epfd, Enabled, next⟩

instance (s : State) (r : Ready) : Decidable (r.Reported s) := by
  cases r <;> simp only [Ready.Reported] <;> infer_instance

instance (source : Option Owner) (r : ReadResult) : Decidable (r.Possible source) := by
  cases r <;> simp only [ReadResult.Possible] <;> infer_instance

instance (s : State) (e : Event) : Decidable (Enabled s e) := by
  cases e <;> simp only [Enabled]
  · infer_instance
  · split <;> infer_instance
  · split <;> infer_instance

instance (listenFd epfd : Fd) (s : State) (e : Event) :
    Decidable ((machine listenFd epfd).Enabled s e) := inferInstanceAs (Decidable (Enabled s e))

/-- Handling an event reported for one session touches no descriptor of another. -/
def Isolated (s : State) : Event → Prop
  | .serve r =>
    match s.batch with
    | .data fd x :: _ => ∀ c ∈ calls s fd r, ∀ y, s.owner c.fd = some (.session y) → y = x
    | _ => True
  | _ => True

/-- A new session is not given the descriptor of an event still to be handled, nor the one
recorded as its other end. -/
def NoReuse (s : State) : Event → Prop
  | .accept client backend true => ∀ r ∈ s.batch.tail,
    match r with
    | .listener => True
    | .data fd _ => ∀ new ∈ [client, backend], new ≠ fd ∧ new ≠ peer s fd
  | _ => True

instance (s : State) (e : Event) : Decidable (NoReuse s e) := by
  have (client backend : Fd) (r : Ready) : Decidable (match r with
      | .listener => True
      | .data fd _ => ∀ new ∈ [client, backend], new ≠ fd ∧ new ≠ peer s fd) := by
    cases r <;> infer_instance
  unfold NoReuse
  split <;> infer_instance

/-! ## The entry of the batch an event is about -/

theorem enabled_accept {s : State} {client backend : Fd} {connected : Bool}
    (he : Enabled s (.accept client backend connected)) :
    ∃ rest, s.batch = .listener :: rest ∧ client < maxEvents ∧ backend < maxEvents ∧
      client ≠ backend ∧ s.owner client = none ∧ s.owner backend = none := by
  simp only [Enabled] at he
  split at he
  · next hb => exact ⟨_, hb, he⟩
  · exact he.elim

theorem enabled_serve {s : State} {r : ReadResult} (he : Enabled s (.serve r)) :
    ∃ fd x rest, s.batch = .data fd x :: rest ∧ r.Possible (s.owner fd) := by
  simp only [Enabled] at he
  split at he
  · next hb => exact ⟨_, _, _, hb, he⟩
  · exact he.elim

/-! ## Sessions hold their two descriptors together -/

structure Paired (s : State) : Prop where
  pair : ∀ fd x, s.owner fd = some (.session x) → peer s fd ≠ fd ∧
    s.owner (peer s fd) = some (.session x) ∧ peer s (peer s fd) = fd
  only : ∀ fd g x, s.owner fd = some (.session x) → s.owner g = some (.session x) →
    g = fd ∨ g = peer s fd
  numbered : ∀ fd x, s.owner fd = some (.session x) → x < s.sessions

/-- Every event still to be handled is for an open session, or for two closed descriptors. -/
structure Pending (s : State) : Prop where
  paired : Paired s
  current : ∀ fd x, .data fd x ∈ s.batch → s.owner fd = some (.session x) ∨
    s.owner fd = none ∧ s.owner (peer s fd) = none

theorem peer_accept {s : State} {client backend fd : Fd} (hne : client ≠ backend) :
    peer (next s (.accept client backend true)) fd =
      if fd = client then backend else if fd = backend then client else peer s fd := by
  by_cases hc : fd = client
  · subst fd
    simp [peer, next, hne]
  · by_cases hb : fd = backend
    · subst fd
      simp [peer, next, hne, hc]
    · simp [peer, next, hc, hb]

theorem owner_accept {s : State} {client backend fd : Fd} :
    (next s (.accept client backend true)).owner fd =
      if fd = client ∨ fd = backend then some (.session s.sessions) else s.owner fd := by
  simp only [next, if_true, Function.update_apply]
  by_cases hb : fd = backend
  · simp [hb]
  · simp [hb]

theorem Paired.accept {s : State} (h : Paired s) {client backend : Fd} (hne : client ≠ backend)
    (hc : s.owner client = none) (hb : s.owner backend = none) :
    Paired (next s (.accept client backend true)) := by
  have hnew {fd x} (ho : s.owner fd = some (.session x)) : fd ≠ client ∧ fd ≠ backend := by
    constructor <;> rintro rfl <;> simp_all
  have hcases {fd x} (ho : (next s (.accept client backend true)).owner fd = some (.session x)) :
      (fd = client ∨ fd = backend) ∧ x = s.sessions ∨
        (fd ≠ client ∧ fd ≠ backend) ∧ s.owner fd = some (.session x) := by
    rw [owner_accept] at ho
    split at ho
    · next hfd => exact Or.inl ⟨hfd, (Owner.session.inj (Option.some.inj ho)).symm⟩
    · next hfd => exact Or.inr ⟨not_or.mp hfd, ho⟩
  constructor
  · intro fd x ho
    rw [peer_accept hne, owner_accept, peer_accept hne]
    rcases hcases ho with ⟨rfl | rfl, rfl⟩ | ⟨⟨hfc, hfb⟩, ho⟩
    · simp [hne.symm]
    · simp [hne, hne.symm]
    · obtain ⟨hp, hpo, hpp⟩ := h.pair fd x ho
      obtain ⟨hpc, hpb⟩ := hnew hpo
      simp only [if_neg hfc, if_neg hfb, hpc, hpb, or_self, if_false]
      exact ⟨hp, hpo, hpp⟩
  · intro fd g x ho hg
    rw [peer_accept hne]
    rcases hcases ho with ⟨hfd, rfl⟩ | ⟨⟨hfc, hfb⟩, ho⟩ <;>
      rcases hcases hg with ⟨hgn, hx⟩ | ⟨⟨hgc, hgb⟩, hg⟩
    · rcases hfd with rfl | rfl <;> rcases hgn with rfl | rfl <;> simp [hne.symm]
    · exact absurd (h.numbered g _ hg) (lt_irrefl _)
    · exact absurd (h.numbered fd _ (hx ▸ ho)) (lt_irrefl _)
    · simp only [if_neg hfc, if_neg hfb]
      exact h.only fd g x ho hg
  · intro fd x ho
    simp only [next, if_true]
    rcases hcases ho with ⟨_, rfl⟩ | ⟨_, ho⟩
    · exact Nat.lt_succ_self _
    · exact Nat.lt_succ_of_lt (h.numbered fd x ho)

/-- What is still open after both descriptors of an event were closed. -/
theorem owner_closed {owner : Fd → Option Owner} {fd p g : Fd} :
    close (close owner fd) p g = if g = fd ∨ g = p then none else owner g := by
  simp only [close, Function.update_apply]
  by_cases hp : g = p <;> simp [hp]

theorem Paired.accept_failed {s : State} (h : Paired s) (client backend : Fd) :
    Paired (next s (.accept client backend false)) := ⟨h.pair, h.only, h.numbered⟩

theorem Paired.closed {s : State} (h : Paired s) {fd : Fd} {rest : List Ready}
    (hboth : ∀ x, s.owner (peer s fd) = some (.session x) → s.owner fd = some (.session x)) :
    Paired { s with owner := close (close s.owner fd) (peer s fd), batch := rest } := by
  -- the descriptors that stay open are paired among themselves
  have hrest {g x} (hg : close (close s.owner fd) (peer s fd) g = some (.session x)) :
      s.owner g = some (.session x) ∧ g ≠ fd ∧ g ≠ peer s fd := by
    rw [owner_closed] at hg
    split at hg
    · cases hg
    · next hne => exact ⟨hg, not_or.mp hne⟩
  constructor
  · intro g x hg
    obtain ⟨hg, hgf, hgp⟩ := hrest hg
    obtain ⟨hne, hpo, hpp⟩ := h.pair g x hg
    refine ⟨hne, ?_, hpp⟩
    change close (close s.owner fd) (peer s fd) (peer s g) = _
    have hpf : peer s g ≠ fd := by
      intro heq
      rw [← heq, hpp] at hgp
      exact hgp rfl
    have hpq : peer s g ≠ peer s fd := by
      intro heq
      have hfd := hboth x (heq ▸ hpo)
      rcases h.only g fd x hg hfd with h1 | h1
      · exact hgf h1.symm
      · exact hpf h1.symm
    rw [owner_closed, if_neg (not_or.mpr ⟨hpf, hpq⟩)]
    exact hpo
  · intro g k x hg hk
    exact h.only g k x (hrest hg).1 (hrest hk).1
  · intro g x hg
    exact h.numbered g x (hrest hg).1

theorem initial_pending (listenFd epfd : Fd) : Pending (initial listenFd epfd) := by
  have hno (fd : Fd) (x : Session) : (initial listenFd epfd).owner fd ≠ some (.session x) := by
    simp only [initial, Function.update_apply]
    split
    · simp
    · split <;> simp
  refine ⟨⟨fun fd x h => absurd h (hno fd x), fun fd g x h => absurd h (hno fd x),
    fun fd x h => absurd h (hno fd x)⟩, ?_⟩
  intro fd x h
  cases h

theorem Pending.serve_failed {s : State} (h : Pending s) {fd : Fd} {x : Session}
    {rest : List Ready} (hb : s.batch = .data fd x :: rest) :
    Pending { s with owner := close (close s.owner fd) (peer s fd), batch := rest } := by
  have hhead := h.current fd x (by rw [hb]; exact List.mem_cons_self)
  have hboth : ∀ z, s.owner (peer s fd) = some (.session z) → s.owner fd = some (.session z) := by
    intro z hz
    rcases hhead with ho | ⟨_, hnone⟩
    · rw [(h.paired.pair fd x ho).2.1] at hz
      exact ho.trans hz
    · rw [hnone] at hz
      cases hz
  refine ⟨h.paired.closed hboth, fun g y hg => ?_⟩
  change close (close s.owner fd) (peer s fd) g = _ ∨ close (close s.owner fd) (peer s fd) g = _ ∧
    close (close s.owner fd) (peer s fd) (peer s g) = _
  rw [owner_closed, owner_closed]
  rcases h.current g y (by rw [hb]; exact List.mem_cons_of_mem _ hg) with ho | ⟨hg', hp'⟩
  · split
    · next heq =>
      refine Or.inr ⟨rfl, if_pos ?_⟩
      rcases heq with rfl | rfl
      · exact Or.inr rfl
      · have hfd := hboth y ho
        exact Or.inl (h.paired.pair fd y hfd).2.2
    · exact Or.inl ho
  · rw [hg', hp', ite_self, ite_self]
    exact Or.inr ⟨rfl, rfl⟩

theorem step_pending {s : State} (h : Pending s) {e : Event} (he : Enabled s e)
    (hr : NoReuse s e) : Pending (next s e) := by
  cases e with
  | poll ready =>
    obtain ⟨_, _, _, hrep⟩ := he
    exact ⟨⟨h.paired.pair, h.paired.only, h.paired.numbered⟩, fun fd x hm => Or.inl (hrep _ hm)⟩
  | accept client backend connected =>
    obtain ⟨rest, hb, -, -, hne, hc, hbk⟩ := enabled_accept he
    have hold {fd x} (hm : .data fd x ∈ rest) : s.owner fd = some (.session x) ∨
        s.owner fd = none ∧ s.owner (peer s fd) = none :=
      h.current fd x (by rw [hb]; exact List.mem_cons_of_mem _ hm)
    cases connected with
    | false =>
      refine ⟨h.paired.accept_failed client backend, fun fd x hm => hold ?_⟩
      simpa [next, hb] using hm
    | true =>
      refine ⟨h.paired.accept hne hc hbk, fun fd x hm => ?_⟩
      have hm : .data fd x ∈ rest := by simpa [next, hb] using hm
      have hfresh := hr (.data fd x) (by rw [hb]; exact hm)
      obtain ⟨hcf, hcp⟩ := hfresh client (by simp)
      obtain ⟨hbf, hbp⟩ := hfresh backend (by simp)
      rw [peer_accept hne, if_neg hcf.symm, if_neg hbf.symm, owner_accept, owner_accept,
        if_neg (not_or.mpr ⟨hcf.symm, hbf.symm⟩), if_neg (not_or.mpr ⟨hcp.symm, hbp.symm⟩)]
      exact hold hm
  | serve r =>
    obtain ⟨fd, x, rest, hb, -⟩ := enabled_serve he
    cases r with
    | data bytes =>
      simp only [next, hb]
      exact ⟨⟨h.paired.pair, h.paired.only, h.paired.numbered⟩,
        fun g y hg => h.current g y (by rw [hb]; exact List.mem_cons_of_mem _ hg)⟩
    | failed =>
      simp only [next, hb]
      exact h.serve_failed hb

theorem calls_fd {s : State} {fd : Fd} {r : ReadResult} {c : Call} (hc : c ∈ calls s fd r) :
    c.fd = fd ∨ c.fd = peer s fd := by
  cases r with
  | data bytes =>
    simp only [calls, List.mem_cons, List.not_mem_nil, or_false] at hc
    rcases hc with rfl | rfl
    · exact Or.inl rfl
    · exact Or.inr rfl
  | failed =>
    simp only [calls, List.mem_cons, List.not_mem_nil, or_false] at hc
    rcases hc with rfl | rfl | rfl
    · exact Or.inl rfl
    · exact Or.inl rfl
    · exact Or.inr rfl

theorem Pending.isolated {s : State} (h : Pending s) (e : Event) : Isolated s e := by
  cases e with
  | poll | accept => trivial
  | serve r =>
    simp only [Isolated]
    split
    · next fd x rest hb =>
      intro c hc y hy
      rcases h.current fd x (by rw [hb]; exact List.mem_cons_self) with ho | ⟨hnone, hpnone⟩
      · rcases calls_fd hc with heq | heq <;> rw [heq] at hy
        · rw [ho] at hy
          cases hy
          rfl
        · rw [(h.paired.pair fd x ho).2.1] at hy
          cases hy
          rfl
      · rcases calls_fd hc with heq | heq <;> rw [heq] at hy
        · rw [hnone] at hy
          cases hy
        · rw [hpnone] at hy
          cases hy
    · trivial

/-! ## A reused descriptor stays in the way until its event is handled -/

structure Numbered (s : State) : Prop where
  owned : ∀ fd x, s.owner fd = some (.session x) → x < s.sessions
  reported : ∀ fd x, .data fd x ∈ s.batch → x < s.sessions

/-- An event still to be handled for a closed session would touch a session accepted since
the batch was fetched. -/
def Tainted (s : State) : Prop :=
  ∃ fd x y, .data fd x ∈ s.batch ∧ (∀ g z, .data g z ∈ s.batch → z ≠ y) ∧
    (s.owner fd = some (.session y) ∨ s.owner (peer s fd) = some (.session y))

theorem step_numbered {s : State} (h : Numbered s) {e : Event} (he : Enabled s e) :
    Numbered (next s e) := by
  cases e with
  | poll ready =>
    obtain ⟨_, _, _, hrep⟩ := he
    exact ⟨h.owned, fun fd x hm => h.owned fd x (hrep _ hm)⟩
  | accept client backend connected =>
    cases connected with
    | false => exact ⟨h.owned, fun fd x hm => h.reported fd x (List.mem_of_mem_tail hm)⟩
    | true =>
      constructor
      · intro fd x ho
        change x < s.sessions + 1
        rw [owner_accept] at ho
        split at ho
        · cases ho
          exact Nat.lt_succ_self _
        · exact Nat.lt_succ_of_lt (h.owned fd x ho)
      · intro fd x hm
        exact Nat.lt_succ_of_lt (h.reported fd x (List.mem_of_mem_tail hm))
  | serve r =>
    simp only [next]
    split
    · next fd x rest hb =>
      have hrest : ∀ g z, .data g z ∈ rest → z < s.sessions :=
        fun g z hm => h.reported g z (by rw [hb]; exact List.mem_cons_of_mem _ hm)
      cases r with
      | data bytes => exact ⟨h.owned, hrest⟩
      | failed =>
        refine ⟨fun g z hg => ?_, hrest⟩
        change close (close s.owner fd) (peer s fd) g = _ at hg
        rw [owner_closed] at hg
        split at hg
        · cases hg
        · exact h.owned g z hg
    · exact h

/-- A step without the condition leaves an event in the way of the new session. -/
theorem reuse_tainted {s : State} (h : Numbered s) {e : Event} (he : Enabled s e)
    (hr : ¬ NoReuse s e) : Tainted (next s e) := by
  cases e with
  | poll | serve => exact absurd trivial hr
  | accept client backend connected =>
    cases connected with
    | false => exact absurd trivial hr
    | true =>
      obtain ⟨-, -, -, -, hne, -, -⟩ := enabled_accept he
      obtain ⟨fd, x, hm, hused⟩ : ∃ fd x, .data fd x ∈ s.batch.tail ∧
          ¬ ∀ new ∈ [client, backend], new ≠ fd ∧ new ≠ peer s fd := by
        simp only [NoReuse, not_forall] at hr
        obtain ⟨r, hm, hr⟩ := hr
        cases r with
        | listener => exact absurd trivial hr
        | data fd x => exact ⟨fd, x, hm, hr⟩
      refine ⟨fd, x, s.sessions, hm, fun g z hg => ?_, ?_⟩
      · exact (h.reported g z (List.mem_of_mem_tail hg)).ne
      · rw [owner_accept, owner_accept, peer_accept hne]
        by_cases hfd : fd = client ∨ fd = backend
        · exact Or.inl (if_pos hfd)
        · obtain ⟨hfc, hfb⟩ := not_or.mp hfd
          rw [if_neg hfc, if_neg hfb]
          refine Or.inr (if_pos ?_)
          by_contra hp
          obtain ⟨hpc, hpb⟩ := not_or.mp hp
          refine hused fun new hnew => ?_
          simp only [List.mem_cons, List.not_mem_nil, or_false] at hnew
          rcases hnew with rfl | rfl
          · exact ⟨Ne.symm hfc, Ne.symm hpc⟩
          · exact ⟨Ne.symm hfb, Ne.symm hpb⟩

theorem Tainted.accept {s : State} (ht : Tainted s) (h : Numbered s) {client backend : Fd}
    {rest : List Ready} (hb : s.batch = .listener :: rest) (hne : client ≠ backend)
    (hc : s.owner client = none) (hbk : s.owner backend = none) :
    Tainted (next s (.accept client backend true)) := by
  obtain ⟨fd, x, y, hm, hy, ho⟩ := ht
  have hm : .data fd x ∈ s.batch.tail := by simpa [hb] using hm
  by_cases hfd : fd = client ∨ fd = backend
  · refine ⟨fd, x, s.sessions, hm, fun g z hg => ?_, Or.inl ?_⟩
    · exact (h.reported g z (List.mem_of_mem_tail hg)).ne
    · rw [owner_accept, if_pos hfd]
  · refine ⟨fd, x, y, hm, fun g z hg => hy g z (List.mem_of_mem_tail hg), ?_⟩
    obtain ⟨hfc, hfb⟩ := not_or.mp hfd
    rw [owner_accept, owner_accept, peer_accept hne, if_neg hfd, if_neg hfc, if_neg hfb]
    refine ho.imp_right fun hp => ?_
    have hopen : ¬ (peer s fd = client ∨ peer s fd = backend) := by
      rintro (heq | heq)
      · rw [heq, hc] at hp
        cases hp
      · rw [heq, hbk] at hp
        cases hp
    rwa [if_neg hopen]

/-- The event handled is another one, and closes nothing of the session in the way. -/
theorem Tainted.serve {s : State} (ht : Tainted s) {r : ReadResult} {fd₀ : Fd} {x₀ : Session}
    {rest : List Ready} (hb : s.batch = .data fd₀ x₀ :: rest)
    (hi : ∀ c ∈ calls s fd₀ r, ∀ y, s.owner c.fd = some (.session y) → y = x₀) :
    Tainted (next s (.serve r)) := by
  obtain ⟨fd, x, y, hm, hy, ho⟩ := ht
  have hx₀ : x₀ ≠ y := hy fd₀ x₀ (by rw [hb]; exact List.mem_cons_self)
  have htouch (c : Call) (hc : c ∈ calls s fd₀ r) : s.owner c.fd ≠ some (.session y) :=
    fun hcy => hx₀ (hi c hc y hcy).symm
  have hread : s.owner fd₀ ≠ some (.session y) :=
    htouch (.read fd₀) (by cases r <;> simp [calls])
  have hpeer : s.owner (peer s fd₀) ≠ some (.session y) := by
    cases r with
    | data bytes => exact htouch (.write (peer s fd₀) bytes) (by simp [calls])
    | failed => exact htouch (.close (peer s fd₀)) (by simp [calls])
  have hm' : .data fd x ∈ rest := by
    rw [hb, List.mem_cons] at hm
    rcases hm with heq | hm
    · cases heq
      exact absurd ho (not_or.mpr ⟨hread, hpeer⟩)
    · exact hm
  have hy' : ∀ g z, .data g z ∈ rest → z ≠ y :=
    fun g z hg => hy g z (by rw [hb]; exact List.mem_cons_of_mem _ hg)
  simp only [next, hb]
  cases r with
  | data bytes => exact ⟨fd, x, y, hm', hy', ho⟩
  | failed =>
    have hkeep {g : Fd} (hg : s.owner g = some (.session y)) :
        close (close s.owner fd₀) (peer s fd₀) g = some (.session y) := by
      rw [owner_closed, if_neg]
      · exact hg
      · rintro (rfl | rfl)
        · exact hread hg
        · exact hpeer hg
    exact ⟨fd, x, y, hm', hy', ho.imp hkeep hkeep⟩

theorem step_tainted {s : State} (ht : Tainted s) (h : Numbered s) {e : Event} (he : Enabled s e)
    (hi : Isolated s e) : Tainted (next s e) := by
  cases e with
  | poll ready =>
    obtain ⟨fd, x, y, hm, _⟩ := ht
    rw [he.1] at hm
    cases hm
  | accept client backend connected =>
    obtain ⟨rest, hb, -, -, hne, hc, hbk⟩ := enabled_accept he
    cases connected with
    | false =>
      obtain ⟨fd, x, y, hm, hy, ho⟩ := ht
      exact ⟨fd, x, y, by simpa [next, hb] using hm,
        fun g z hg => hy g z (List.mem_of_mem_tail hg), ho⟩
    | true => exact ht.accept h hb hne hc hbk
  | serve r =>
    obtain ⟨fd₀, x₀, rest, hb, -⟩ := enabled_serve he
    simp only [Isolated, hb] at hi
    exact ht.serve hb hi

theorem initial_numbered (listenFd epfd : Fd) : Numbered (initial listenFd epfd) :=
  ⟨(initial_pending listenFd epfd).paired.numbered, fun _ _ h => by cases h⟩

theorem run_numbered {listenFd epfd : Fd} {es : List Event} (h : (machine listenFd epfd).Valid es) :
    Numbered ((machine listenFd epfd).run es) :=
  Machine.invariant (I := Numbered) (initial_numbered listenFd epfd)
    (fun _ _ hs he => step_numbered hs he) h

/-- A run that has touched no other session's descriptor has reused none, or is about to. -/
theorem run_reuse {listenFd epfd : Fd} {es : List Event} (h : (machine listenFd epfd).Valid es)
    (hi : (machine listenFd epfd).Along Isolated es) :
    (machine listenFd epfd).Along NoReuse es ∨ Tainted ((machine listenFd epfd).run es) := by
  induction es using List.reverseRecOn with
  | nil => exact Or.inl trivial
  | append_singleton es e ih =>
    obtain ⟨hv, he⟩ := (Machine.valid_concat es e).mp h
    obtain ⟨hi, hie⟩ := (Machine.along_concat es e).mp hi
    rw [Machine.run_concat, Machine.along_concat]
    rcases ih hv hi with hr | ht
    · by_cases hre : NoReuse ((machine listenFd epfd).run es) e
      · exact Or.inl ⟨hr, hre⟩
      · exact Or.inr (reuse_tainted (run_numbered hv) he hre)
    · exact Or.inr (step_tainted ht (run_numbered hv) he hie)

/-! ## Isolation is the kernel not reusing what a batch still names -/

theorem run_isolated {listenFd epfd : Fd} {es : List Event} (h : (machine listenFd epfd).Valid es)
    (hr : (machine listenFd epfd).Along NoReuse es) :
    (machine listenFd epfd).Along Isolated es :=
  Machine.along_of_invariant (I := Pending) (initial_pending listenFd epfd)
    (fun _ _ hs he hc => step_pending hs he hc) (fun _ e hs _ => hs.isolated e) h hr

/-- Sessions are isolated in every run in which no new session is given a descriptor that the
rest of the batch refers to; and a run that has handled its last batch to the end is isolated
only then. -/
theorem isolated_iff_no_reuse (listenFd epfd : Fd) (es : List Event)
    (h : (machine listenFd epfd).Valid es) :
    ((machine listenFd epfd).Along NoReuse es → (machine listenFd epfd).Along Isolated es) ∧
      (((machine listenFd epfd).run es).batch = [] →
        ((machine listenFd epfd).Along Isolated es ↔
          (machine listenFd epfd).Along NoReuse es)) := by
  refine ⟨run_isolated h, fun hb => ⟨fun hi => ?_, run_isolated h⟩⟩
  rcases run_reuse h hi with hr | ⟨fd, x, y, hm, _⟩
  · exact hr
  · rw [hb] at hm
    cases hm

/-- Both ends of a session report its end in one batch, and the next batch reuses them. -/
theorem isolated_reuse_in_next_batch :
    let es : List Event := [.poll [.listener], .accept 5 6 true, .poll [.data 5 0, .data 6 0],
      .serve .failed, .serve .failed, .poll [.listener], .accept 6 5 true]
    (machine 3 4).Along Isolated es ∧ ((machine 3 4).run es).owner 5 = some (.session 1) := by
  exact ⟨(isolated_iff_no_reuse 3 4 _ (by decide)).1 (by decide), by decide⟩

/-- Session 0 ends, a new session is given its descriptors in the same batch, and the second
event of session 0 reads from and closes them. -/
theorem stale_event_closes_new_session :
    ¬ ∀ es, (machine 3 4).Valid es → (machine 3 4).Along Isolated es := by
  intro hall
  have hi := hall [.poll [.listener], .accept 5 6 true, .poll [.data 5 0, .listener, .data 6 0],
    .serve .failed, .accept 5 6 true, .serve .failed] (by decide)
  obtain ⟨_, _, _, _, _, hlast, _⟩ := hi
  have hy := hlast (.read 6) (by decide) 1 (by decide)
  cases hy

end AsyncLoadBalancer
