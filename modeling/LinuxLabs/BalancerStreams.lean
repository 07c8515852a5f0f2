import LinuxLabs.AsyncLoadBalancer
import LinuxLabs.TcpLoadBalancer

/-! # What the TCP load balancers do to a byte stream (labs 10, 11 and 13)
All three pass what they read to one `write` and do not look at what it returns. The
bytes that arrive are a prefix of those that were read until a write falls short, and
from then on as long as nothing more is accepted in that direction. -/
namespace BalancerStreams

open Execution Forwarding

/-! ## Labs 10 and 11 -/

section Tcp

open TcpLoadBalancer

/-- After a write fell short, the writes of what the same descriptor sends accept nothing. -/
def TcpInTurn (s : State) : Event → Prop
  | .ready fd (.data _) accepted => ∀ u ∈ s.transfers, u.source = fd → u.Short → accepted = 0
  | _ => True

instance (s : State) (e : Event) : Decidable (TcpInTurn s e) := by
  casesm* Event, ReadResult <;> simp only [TcpInTurn] <;> infer_instance

def TcpIntact (s : State) : Prop :=
  ∀ c ∈ s.connTable, Intact s.transfers c.clientFd c.backendFd ∧
    Intact s.transfers c.backendFd c.clientFd

variable {s : State}

theorem tcp_step (h : Invariant s) {e : Event} (he : Enabled s e) :
    (∀ a, InOrder (next s e).transfers a) ↔ (∀ a, InOrder s.transfers a) ∧ TcpInTurn s e := by
  cases e with
  | accept cfd bfd r => cases r <;> exact (and_iff_left trivial).symm
  | acceptFailed => exact (and_iff_left trivial).symm
  | ready fd r accepted =>
    cases r with
    | wouldBlock | ended =>
      simp only [next, forwardData]
      split <;> exact (and_iff_left trivial).symm
    | data bytes =>
      simp only [next, forwardData, TcpInTurn]
      split
      · next hp =>
        -- nothing was ever read from a descriptor that is not recorded
        refine (and_iff_left fun u hu hs => ?_).symm
        obtain ⟨c, hc, hl⟩ := h.linked u hu
        rw [hs] at hl
        rw [(pairedFd_eq_some h.distinct).mpr ⟨c, hc, hl⟩] at hp
        cases hp
      · obtain ⟨_, _, _, hle⟩ := he
        simp only [inOrder_concat, Transfer.moved, Nat.min_eq_left hle, forall_and]
        refine and_congr_right fun _ => ⟨fun hi => hi fd rfl, ?_⟩
        rintro hi _ rfl
        exact hi

theorem tcp_intact_iff (h : Invariant s) : TcpIntact s ↔ ∀ a, InOrder s.transfers a := by
  have hdir {c : Conn} (hc : c ∈ s.connTable) {a b : Fd} (hl : c.Links a b) :
      ∀ t ∈ s.transfers, t.source = a ↔ t.dest = b := by
    intro t ht
    obtain ⟨d, hd, hlt⟩ := h.linked t ht
    have hab := (pairedFd_eq_some h.distinct).mpr ⟨c, hc, hl⟩
    have hba := (pairedFd_eq_some h.distinct).mpr ⟨c, hc, hl.symm⟩
    have hsd := (pairedFd_eq_some h.distinct).mpr ⟨d, hd, hlt⟩
    have hds := (pairedFd_eq_some h.distinct).mpr ⟨d, hd, hlt.symm⟩
    constructor
    · intro hs
      rw [hs, hab] at hsd
      exact (Option.some.inj hsd).symm
    · intro ht
      rw [ht, hba] at hds
      exact (Option.some.inj hds).symm
  constructor
  · intro hi a
    by_cases ha : a ∈ endpoints s.connTable
    · obtain ⟨c, hc, hm⟩ := List.mem_flatMap.mp ha
      simp only [List.mem_cons, List.not_mem_nil, or_false] at hm
      rcases hm with rfl | rfl
      · exact (intact_iff (hdir hc (Or.inl ⟨rfl, rfl⟩))).mp (hi c hc).1
      · exact (intact_iff (hdir hc (Or.inr ⟨rfl, rfl⟩))).mp (hi c hc).2
    · refine List.pairwise_of_forall_mem_list fun t ht _ _ hs => ?_
      obtain ⟨c, hc, hl⟩ := h.linked t ht
      exact absurd (hs ▸ hl.mem hc) ha
  · intro hi c hc
    exact ⟨(intact_iff (hdir hc (Or.inl ⟨rfl, rfl⟩))).mpr (hi _),
      (intact_iff (hdir hc (Or.inr ⟨rfl, rfl⟩))).mpr (hi _)⟩

theorem tcp_streams {listenFd : Fd} {reserved : Finset Fd} {es : List Event}
    (h : (machine listenFd reserved).Valid es) :
    TcpIntact ((machine listenFd reserved).run es) ↔
      (machine listenFd reserved).Along TcpInTurn es := by
  rw [tcp_intact_iff (run_invariant h)]
  refine (Machine.along_iff (M := machine listenFd reserved)
    (P := fun s => ∀ a, InOrder s.transfers a) (fun _ => List.Pairwise.nil) ?_ h).symm
  exact fun _ _ hv he => tcp_step (run_invariant hv) he

/-- What a session's peer accepted is then a prefix of what was read for it. -/
theorem tcp_prefix {listenFd : Fd} {reserved : Finset Fd} {es : List Event}
    (h : (machine listenFd reserved).Valid es)
    (hi : (machine listenFd reserved).Along TcpInTurn es) :
    let s := (machine listenFd reserved).run es
    ∀ c ∈ s.connTable,
      acceptedBy s.transfers c.backendFd <+: readFrom s.transfers c.clientFd ∧
      acceptedBy s.transfers c.clientFd <+: readFrom s.transfers c.backendFd := by
  intro s c hc
  obtain ⟨hup, hdown⟩ := (tcp_streams h).mpr hi c hc
  exact ⟨hup.items, hdown.items⟩

end Tcp

/-! ## Lab 13 -/

section Async

open AsyncLoadBalancer

/-- An end of a session: a descriptor while that session owns it. -/
abbrev End := Option Owner × Fd

/-- The balancer with its history: the client and the backend descriptor of each session,
and what was forwarded. -/
structure Traffic where
  server : State
  pairs : List (Fd × Fd)
  log : List (Transfer End UInt8)

def endOf (s : State) (fd : Fd) : End := (s.owner fd, fd)

/-- An event with the number of bytes its `write` accepts, 0 if it fails. -/
structure Step where
  event : Event
  accepted : ℕ
  deriving DecidableEq

/-- The chunk that an event forwards and the descriptor it was read from. -/
def forwarded (s : State) : Event → Option (Fd × List UInt8)
  | .serve (.data bytes) =>
    match s.batch with
    | .data fd _ :: _ => some (fd, bytes)
    | _ => none
  | _ => none

def StepEnabled (t : Traffic) (e : Step) : Prop :=
  Enabled t.server e.event ∧ ∀ f ∈ forwarded t.server e.event,
    e.accepted ≤ f.2.length ∧ (t.server.owner (peer t.server f.1) = none → e.accepted = 0)

def recordPair (pairs : List (Fd × Fd)) : Event → List (Fd × Fd)
  | .accept client backend true => pairs ++ [(client, backend)]
  | _ => pairs

def trafficNext (t : Traffic) (e : Step) : Traffic where
  server := next t.server e.event
  pairs := recordPair t.pairs e.event
  log :=
    match forwarded t.server e.event with
    | none => t.log
    | some (fd, bytes) =>
      t.log ++ [⟨endOf t.server fd, endOf t.server (peer t.server fd), bytes, e.accepted⟩]

def traffic (listenFd epfd : Fd) : Machine Traffic Step :=
  ⟨⟨initial listenFd epfd, [], []⟩, StepEnabled, trafficNext⟩

def AsyncNoReuse (t : Traffic) (e : Step) : Prop := NoReuse t.server e.event

def AsyncInTurn (t : Traffic) (e : Step) : Prop :=
  ∀ f ∈ forwarded t.server e.event,
    ∀ u ∈ t.log, u.source = endOf t.server f.1 → u.Short → e.accepted = 0

/-- Both directions of every session, by the descriptors it was given. -/
def AsyncIntact (t : Traffic) : Prop :=
  ∀ (x : Session) (c b : Fd), t.pairs[x]? = some (c, b) →
    Intact t.log (some (.session x), c) (some (.session x), b) ∧
      Intact t.log (some (.session x), b) (some (.session x), c)

/-- The ends of session `x`, in either order. -/
def Ends (pairs : List (Fd × Fd)) (x : Session) (a b : Fd) : Prop :=
  pairs[x]? = some (a, b) ∨ pairs[x]? = some (b, a)

structure Recorded (t : Traffic) : Prop where
  pending : Pending t.server
  count : t.pairs.length = t.server.sessions
  apart : ∀ p ∈ t.pairs, p.1 ≠ p.2
  owned : ∀ fd x, t.server.owner fd = some (.session x) → Ends t.pairs x fd (peer t.server fd)
  linked : ∀ u ∈ t.log, ∃ x a b, Ends t.pairs x a b ∧
    u.source = (some (.session x), a) ∧ u.dest = (some (.session x), b)

theorem Ends.append {pairs : List (Fd × Fd)} {x : Session} {a b : Fd} (h : Ends pairs x a b)
    (p : Fd × Fd) : Ends (pairs ++ [p]) x a b := by
  have hlt : x < pairs.length := by
    rcases h with h | h <;> exact (List.getElem?_eq_some_iff.mp h).1
  rw [Ends, List.getElem?_append_left hlt]
  exact h

/-- Two links of one session that share an end on one side share the other. -/
theorem Ends.unique {pairs : List (Fd × Fd)} {x : Session} {a b c d : Fd} (h : Ends pairs x a b)
    (hapart : ∀ p ∈ pairs, p.1 ≠ p.2) (h' : Ends pairs x c d) : c = a ↔ d = b := by
  have hne {p q : Fd} (hp : pairs[x]? = some (p, q)) : p ≠ q :=
    hapart (p, q) (List.mem_of_getElem? hp)
  rcases h with h | h <;> rcases h' with h' | h' <;>
    obtain ⟨rfl, rfl⟩ := Prod.mk.inj (Option.some.inj (h.symm.trans h'))
  · exact iff_of_true rfl rfl
  · exact iff_of_false (hne h).symm (hne h)
  · exact iff_of_false (hne h) (hne h).symm
  · exact iff_of_true rfl rfl

theorem initial_recorded (listenFd epfd : Fd) :
    Recorded ⟨initial listenFd epfd, [], []⟩ := by
  have hp := initial_pending listenFd epfd
  refine ⟨hp, rfl, by simp, fun fd x ho => ?_, by simp⟩
  exact absurd (hp.paired.numbered fd x ho) (Nat.not_lt_zero _)

/-- A step that opens no session. -/
theorem Recorded.kept {t t' : Traffic} (h : Recorded t) (hp : Pending t'.server)
    (hpairs : t'.pairs = t.pairs) (hsessions : t'.server.sessions = t.server.sessions)
    (howner : ∀ fd x, t'.server.owner fd = some (.session x) →
      t.server.owner fd = some (.session x))
    (hpeer : ∀ fd, peer t'.server fd = peer t.server fd)
    (hlog : ∀ u ∈ t'.log, u ∈ t.log ∨ ∃ x a b, Ends t.pairs x a b ∧
      u.source = (some (.session x), a) ∧ u.dest = (some (.session x), b)) : Recorded t' := by
  refine ⟨hp, ?_, ?_, fun fd x ho => ?_, fun u hu => ?_⟩
  · rw [hpairs, hsessions]
    exact h.count
  · rw [hpairs]
    exact h.apart
  · rw [hpairs, hpeer]
    exact h.owned fd x (howner fd x ho)
  · rw [hpairs]
    rcases hlog u hu with hu | hu
    · exact h.linked u hu
    · exact hu

theorem Recorded.accept {t : Traffic} (h : Recorded t) {client backend : Fd} {accepted : ℕ}
    (he : Enabled t.server (.accept client backend true))
    (hr : NoReuse t.server (.accept client backend true)) :
    Recorded (trafficNext t ⟨.accept client backend true, accepted⟩) := by
  have hp := step_pending h.pending he hr
  have hserver : (trafficNext t ⟨.accept client backend true, accepted⟩).server =
    next t.server (.accept client backend true) := rfl
  have hpairs : (trafficNext t ⟨.accept client backend true, accepted⟩).pairs =
    t.pairs ++ [(client, backend)] := rfl
  obtain ⟨-, -, -, -, hne, -, -⟩ := enabled_accept he
  refine ⟨hp, ?_, fun p hm => ?_, fun fd x ho => ?_, fun u hu => ?_⟩
  · rw [hserver, hpairs, List.length_append, List.length_singleton, h.count]
    rfl
  · rw [hpairs] at hm
    rcases List.mem_append.mp hm with hm | hm
    · exact h.apart p hm
    · obtain rfl := List.mem_singleton.mp hm
      exact hne
  · have hnew : (t.pairs ++ [(client, backend)])[t.server.sessions]? =
        some (client, backend) := by
      rw [← h.count, List.getElem?_concat_length]
    rw [hserver, owner_accept] at ho
    rw [hserver, hpairs, peer_accept hne]
    split at ho
    · next hfd =>
      cases ho
      rcases hfd with rfl | rfl
      · rw [if_pos rfl]
        exact Or.inl hnew
      · rw [if_neg hne.symm, if_pos rfl]
        exact Or.inr hnew
    · next hfd =>
      obtain ⟨hfc, hfb⟩ := not_or.mp hfd
      rw [if_neg hfc, if_neg hfb]
      exact (h.owned fd x ho).append _
  · obtain ⟨x, a, b, hl, hs, hd⟩ := h.linked u hu
    exact ⟨x, a, b, hl.append _, hs, hd⟩

/-- The chunk an event forwards goes from one end of a session to the other. -/
theorem Recorded.forward {t : Traffic} (h : Recorded t) {e : Event} (he : Enabled t.server e)
    {f : Fd × List UInt8} (hf : forwarded t.server e = some f) :
    ∃ x, Ends t.pairs x f.1 (peer t.server f.1) ∧
      endOf t.server f.1 = (some (.session x), f.1) ∧
      endOf t.server (peer t.server f.1) = (some (.session x), peer t.server f.1) := by
  unfold forwarded at hf
  split at hf
  · split at hf
    · next fd x rest hb =>
      cases hf
      simp only [Enabled, hb] at he
      have hsource : t.server.owner fd = some (.session x) := by
        rcases h.pending.current fd x (by rw [hb]; exact List.mem_cons_self) with ho | ⟨hn, _⟩
        · exact ho
        · exact absurd hn he.1
      have hdest := (h.pending.paired.pair fd x hsource).2.1
      exact ⟨x, h.owned fd x hsource, congrArg (·, fd) hsource,
        congrArg (·, peer t.server fd) hdest⟩
    · cases hf
  · cases hf

theorem Recorded.log {t : Traffic} (h : Recorded t) {e : Step} (he : Enabled t.server e.event) :
    ∀ u ∈ (trafficNext t e).log, u ∈ t.log ∨ ∃ x a b, Ends t.pairs x a b ∧
      u.source = (some (.session x), a) ∧ u.dest = (some (.session x), b) := by
  intro u hu
  simp only [trafficNext] at hu
  split at hu
  · exact Or.inl hu
  · next fd bytes hf =>
    obtain ⟨x, hl, hs, hd⟩ := h.forward he hf
    rcases List.mem_append.mp hu with hu | hu
    · exact Or.inl hu
    · obtain rfl := List.mem_singleton.mp hu
      exact Or.inr ⟨x, fd, peer t.server fd, hl, hs, hd⟩

theorem step_recorded {t : Traffic} (h : Recorded t) {e : Step} (he : StepEnabled t e)
    (hr : AsyncNoReuse t e) : Recorded (trafficNext t e) := by
  obtain ⟨e, accepted⟩ := e
  obtain ⟨he, _⟩ := he
  have hp := step_pending h.pending he hr
  have hlog := h.log (e := ⟨e, accepted⟩) he
  cases e with
  | poll ready => exact h.kept hp rfl rfl (fun _ _ ho => ho) (fun _ => rfl) hlog
  | accept client backend connected =>
    cases connected with
    | true => exact h.accept he hr
    | false => exact h.kept hp rfl rfl (fun _ _ ho => ho) (fun _ => rfl) hlog
  | serve r =>
    obtain ⟨fd, x, rest, hb, -⟩ := enabled_serve he
    cases r with
    | data bytes =>
      have hserver : next t.server (.serve (.data bytes)) = { t.server with batch := rest } := by
        simp only [next, hb]
      refine h.kept hp rfl ?_ (fun g y ho => ?_) (fun g => ?_) hlog
      · rw [trafficNext, hserver]
      · rw [trafficNext, hserver] at ho
        exact ho
      · rw [trafficNext, hserver]
        rfl
    | failed =>
      have hserver : next t.server (.serve .failed) = { t.server with
          owner := close (close t.server.owner fd) (peer t.server fd), batch := rest } := by
        simp only [next, hb]
      refine h.kept hp rfl ?_ (fun g y ho => ?_) (fun g => ?_) hlog
      · rw [trafficNext, hserver]
      · rw [trafficNext, hserver] at ho
        change close (close t.server.owner fd) (peer t.server fd) g = _ at ho
        rw [owner_closed] at ho
        split at ho
        · cases ho
        · exact ho
      · rw [trafficNext, hserver]
        rfl

theorem run_recorded {listenFd epfd : Fd} {es : List Step} (h : (traffic listenFd epfd).Valid es)
    (hr : (traffic listenFd epfd).Along AsyncNoReuse es) :
    Recorded ((traffic listenFd epfd).run es) :=
  Machine.invariant_along (I := Recorded) (initial_recorded listenFd epfd)
    (fun _ _ hs he hr => step_recorded hs he hr) h hr

theorem async_step {t : Traffic} {e : Step} (he : StepEnabled t e) :
    (∀ a, InOrder (trafficNext t e).log a) ↔ (∀ a, InOrder t.log a) ∧ AsyncInTurn t e := by
  obtain ⟨_, hw⟩ := he
  simp only [trafficNext, AsyncInTurn]
  cases hf : forwarded t.server e.event with
  | none => exact (and_iff_left fun f hf => by cases hf).symm
  | some f =>
    obtain ⟨hle, _⟩ := hw f hf
    simp only [inOrder_concat, Transfer.moved, Nat.min_eq_left hle, forall_and]
    refine and_congr_right fun _ => ⟨?_, ?_⟩
    · intro hi f' hf'
      obtain rfl := Option.some.inj hf'
      exact hi _ rfl
    · rintro hi _ rfl
      exact hi f rfl

theorem async_intact_iff {t : Traffic} (h : Recorded t) :
    AsyncIntact t ↔ ∀ a, InOrder t.log a := by
  have hdir {x : Session} {a b : Fd} (hl : Ends t.pairs x a b) :
      ∀ u ∈ t.log, u.source = (some (.session x), a) ↔ u.dest = (some (.session x), b) := by
    intro u hu
    obtain ⟨y, c, d, hl', hs, hd⟩ := h.linked u hu
    rw [hs, hd]
    constructor
    · intro heq
      obtain ⟨hy, rfl⟩ := Prod.mk.inj heq
      obtain rfl := Owner.session.inj (Option.some.inj hy)
      rw [(hl.unique h.apart hl').mp rfl]
    · intro heq
      obtain ⟨hy, rfl⟩ := Prod.mk.inj heq
      obtain rfl := Owner.session.inj (Option.some.inj hy)
      rw [(hl.unique h.apart hl').mpr rfl]
  constructor
  · intro hi a
    by_cases ha : ∃ u ∈ t.log, u.source = a
    · obtain ⟨u, hu, rfl⟩ := ha
      obtain ⟨x, a, b, hl, hs, _⟩ := h.linked u hu
      rw [hs]
      rcases hl with hp | hp
      · exact (intact_iff (hdir (Or.inl hp))).mp (hi x a b hp).1
      · exact (intact_iff (hdir (Or.inr hp))).mp (hi x b a hp).2
    · exact List.pairwise_of_forall_mem_list fun u hu _ _ hs => absurd ⟨u, hu, hs⟩ ha
  · intro hi x c b hp
    exact ⟨(intact_iff (hdir (Or.inl hp))).mpr (hi _), (intact_iff (hdir (Or.inr hp))).mpr (hi _)⟩

theorem async_streams {listenFd epfd : Fd} {es : List Step} (h : (traffic listenFd epfd).Valid es)
    (hr : (traffic listenFd epfd).Along AsyncNoReuse es) :
    AsyncIntact ((traffic listenFd epfd).run es) ↔
      (traffic listenFd epfd).Along AsyncInTurn es := by
  rw [async_intact_iff (run_recorded h hr)]
  exact (Machine.along_iff (M := traffic listenFd epfd)
    (P := fun t => ∀ a, InOrder t.log a) (fun _ => List.Pairwise.nil)
    (fun _ _ _ he => async_step he) h).symm

instance (listenFd epfd : Fd) (t : Traffic) (e : Step) :
    Decidable ((traffic listenFd epfd).Enabled t e) :=
  inferInstanceAs (Decidable (_ ∧ ∀ f ∈ forwarded t.server e.event, _))

instance (t : Traffic) (e : Step) : Decidable (AsyncInTurn t e) :=
  inferInstanceAs (Decidable (∀ f ∈ forwarded t.server e.event, _))

instance (t : Traffic) (e : Step) : Decidable (AsyncNoReuse t e) :=
  inferInstanceAs (Decidable (NoReuse t.server e.event))

end Async

/-! ## The streams of all three -/

/-- The bytes a peer accepted are, direction by direction, a prefix of those read for it
exactly in the runs in which no write accepts anything after one that fell short. In lab 13
this is about runs that recycle no descriptor of an event still to be handled. -/
theorem streams_intact (listenFd epfd : ℕ) (reserved : Finset ℕ) :
    (∀ es : List TcpLoadBalancer.Event, (TcpLoadBalancer.machine listenFd reserved).Valid es →
      (TcpIntact ((TcpLoadBalancer.machine listenFd reserved).run es) ↔
        (TcpLoadBalancer.machine listenFd reserved).Along TcpInTurn es)) ∧
    ∀ es : List Step, (traffic listenFd epfd).Valid es →
      (traffic listenFd epfd).Along AsyncNoReuse es →
        (AsyncIntact ((traffic listenFd epfd).run es) ↔
          (traffic listenFd epfd).Along AsyncInTurn es) :=
  ⟨fun _ h => tcp_streams h, fun _ h hr => async_streams h hr⟩

/-- The client reads slowly: its last reply is cut short and nothing follows it. -/
theorem streams_intact_slow_client :
    TcpIntact ((TcpLoadBalancer.machine 3 {0, 1, 2, 4}).run [.accept 5 6 .connected,
      .ready 5 (.data [71]) 1, .ready 6 (.data [104, 105]) 2, .ready 6 (.data [33, 10]) 1]) ∧
    AsyncIntact ((traffic 3 4).run [⟨.poll [.listener], 0⟩, ⟨.accept 5 6 true, 0⟩,
      ⟨.poll [.data 5 0], 0⟩, ⟨.serve (.data [71]), 1⟩, ⟨.poll [.data 6 0], 0⟩,
      ⟨.serve (.data [33, 10]), 1⟩]) :=
  ⟨((streams_intact 3 4 {0, 1, 2, 4}).1 _ (by decide)).mpr (by decide),
    ((streams_intact 3 4 {0, 1, 2, 4}).2 _ (by decide) (by decide)).mpr (by decide)⟩

/-- A request whose first write is cut short after one byte arrives with a hole in it. -/
theorem byte_dropped_on_short_write :
    (let es : List TcpLoadBalancer.Event := [.accept 5 6 .connected,
      .ready 5 (.data [97, 98]) 1, .ready 5 (.data [99, 100]) 2]
    let s := (TcpLoadBalancer.machine 3 {0, 1, 2, 4}).run es
    (TcpLoadBalancer.machine 3 {0, 1, 2, 4}).Valid es ∧
      acceptedBy s.transfers 6 = [97, 99, 100] ∧
      ¬ acceptedBy s.transfers 6 <+: readFrom s.transfers 5) ∧
    let es : List Step := [⟨.poll [.listener], 0⟩, ⟨.accept 5 6 true, 0⟩,
      ⟨.poll [.data 5 0], 0⟩, ⟨.serve (.data [97, 98]), 0⟩, ⟨.poll [.data 5 0], 0⟩,
      ⟨.serve (.data [99, 100]), 2⟩]
    let t := (traffic 3 4).run es
    (traffic 3 4).Valid es ∧ (traffic 3 4).Along AsyncNoReuse es ∧
      acceptedBy t.log (some (.session 0), 6) = [99, 100] ∧
      ¬ acceptedBy t.log (some (.session 0), 6) <+: readFrom t.log (some (.session 0), 5) := by
  decide

end BalancerStreams
