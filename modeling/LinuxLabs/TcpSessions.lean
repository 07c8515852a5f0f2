import LinuxLabs.TcpLoadBalancer

/-! # The sessions of the TCP load balancers (labs 10 and 11)
`forward_data` returns when its read returns 0 or fails, and nothing else looks at what it
read: no entry leaves `conn_table` and no descriptor of a session is closed. -/
namespace TcpSessions

open Execution TcpLoadBalancer

/-- `conn_t conn_table[1024]`. -/
def tableSize : ℕ := 1024

/-- Beside the balancer: all sessions so far, and those of which a read has returned 0 or failed
for good. Nothing reads these. -/
structure State where
  balancer : TcpLoadBalancer.State
  sessions : List Conn
  ended : List Conn

def initial (listenFd : Fd) (reserved : Finset Fd) : State :=
  ⟨TcpLoadBalancer.initial listenFd reserved, [], []⟩

def Enabled (s : State) (e : Event) : Prop := TcpLoadBalancer.Enabled s.balancer e

def started : Event → List Conn
  | .accept cfd bfd r => (connectBackend bfd r).toList.map fun bfd => ⟨cfd, bfd⟩
  | _ => []

/-- The session whose end was read to its end. -/
def endedBy (s : State) : Event → List Conn
  | .ready fd .ended _ =>
    if pairedFd s.balancer.connTable fd = none then []
    else s.sessions.filter fun c => c.clientFd = fd ∨ c.backendFd = fd
  | _ => []

def next (s : State) (e : Event) : State where
  balancer := TcpLoadBalancer.next s.balancer e
  sessions := s.sessions ++ started e
  ended := s.ended ++ endedBy s e

def machine (listenFd : Fd) (reserved : Finset Fd) : Machine State Event :=
  ⟨initial listenFd reserved, Enabled, next⟩

instance (s : State) (e : Event) : Decidable (Enabled s e) :=
  inferInstanceAs (Decidable (TcpLoadBalancer.Enabled s.balancer e))

instance (listenFd : Fd) (reserved : Finset Fd) (s : State) (e : Event) :
    Decidable ((machine listenFd reserved).Enabled s e) := inferInstanceAs (Decidable (Enabled s e))

/-- The sessions with both ends still open. -/
def live (s : State) : List Conn := s.sessions.filter fun c => c ∉ s.ended

structure TornDown (s : State) : Prop where
  gone : ∀ c ∈ s.ended, c ∉ s.balancer.connTable ∧ c.clientFd ∉ s.balancer.openFds ∧
    c.backendFd ∉ s.balancer.openFds
  counted : s.balancer.connTable.length = (live s).length

/-- The step writes no entry behind the end of `conn_table`. -/
def InBounds (s : State) (e : Event) : Prop :=
  started e ≠ [] → s.balancer.connTable.length < tableSize

/-- The step is no read that returns 0 or fails for good. -/
def NoReadEnds (s : State) : Event → Prop
  | .ready fd .ended _ => pairedFd s.balancer.connTable fd = none
  | _ => True

instance (s : State) (e : Event) : Decidable (NoReadEnds s e) := by
  unfold NoReadEnds
  split <;> infer_instance

/-! ## The table has all sessions -/

structure Invariant (s : State) : Prop where
  safe : TcpLoadBalancer.Invariant s.balancer
  table : s.balancer.connTable = s.sessions
  ended : s.ended ⊆ s.sessions

variable {s : State} {e : Event}

theorem next_connTable (s : TcpLoadBalancer.State) (e : Event) :
    (TcpLoadBalancer.next s e).connTable = s.connTable ++ started e := by
  cases e with
  | accept cfd bfd r => cases r <;> simp [TcpLoadBalancer.next, started, connectBackend]
  | acceptFailed => simp [TcpLoadBalancer.next, started]
  | ready fd r accepted =>
    simp only [TcpLoadBalancer.next, started, List.append_nil]
    split
    · rfl
    · cases r <;> rfl

theorem endedBy_subset (s : State) (e : Event) : endedBy s e ⊆ s.sessions := by
  unfold endedBy
  split
  · split
    · exact List.nil_subset _
    · exact List.filter_sublist.subset
  · exact List.nil_subset _

theorem initial_invariant (listenFd : Fd) (reserved : Finset Fd) :
    Invariant (initial listenFd reserved) :=
  ⟨TcpLoadBalancer.initial_invariant listenFd reserved, rfl, List.nil_subset _⟩

theorem next_invariant (h : Invariant s) (he : Enabled s e) : Invariant (next s e) := by
  constructor
  · exact step_invariant h.safe he
  · simp only [next, next_connTable, h.table]
  · apply List.append_subset.mpr
    constructor
    · exact List.Subset.trans h.ended (List.subset_append_left _ _)
    · exact List.Subset.trans (endedBy_subset s e) (List.subset_append_left _ _)

theorem run_invariant {listenFd : Fd} {reserved : Finset Fd} {es : List Event}
    (h : (machine listenFd reserved).Valid es) : Invariant ((machine listenFd reserved).run es) :=
  Machine.invariant (M := machine listenFd reserved) (initial_invariant listenFd reserved)
    (fun _ _ hs he => next_invariant hs he) h

/-- A read of a session's end that ends is the end of that session. -/
theorem endedBy_eq_nil (h : Invariant s) : endedBy s e = [] ↔ NoReadEnds s e := by
  unfold endedBy NoReadEnds
  split
  · next fd accepted =>
    split
    · next hnone => simp [hnone]
    · next hsome =>
      obtain ⟨dst, hdst⟩ := Option.ne_none_iff_exists'.mp hsome
      obtain ⟨c, hc, hl⟩ := (pairedFd_eq_some h.safe.distinct).mp hdst
      rw [h.table] at hc
      apply iff_of_false
      · intro hnil
        have hmem := List.filter_eq_nil_iff.mp hnil c hc
        rcases hl with ⟨hfd, -⟩ | ⟨hfd, -⟩ <;> simp [hfd] at hmem
      · exact hsome
  · exact iff_of_true rfl trivial

/-- A session that has ended stays in the table, so none has. -/
theorem tornDown_iff (h : Invariant s) : TornDown s ↔ s.ended = [] := by
  constructor
  · intro ht
    apply List.eq_nil_iff_forall_not_mem.mpr
    intro c hc
    have hout := (ht.gone c hc).1
    rw [h.table] at hout
    exact hout (h.ended hc)
  · intro hended
    constructor
    · simp [hended]
    · simp [live, hended, h.table]

theorem next_ended (h : Invariant s) : (next s e).ended = [] ↔ s.ended = [] ∧ NoReadEnds s e := by
  rw [← endedBy_eq_nil h]
  exact List.append_eq_nil_iff

/-- All sessions of the run are torn down when they end exactly when none ends; then the table
is as large as the number of sessions with both ends open. -/
theorem torn_down_iff (listenFd : Fd) (reserved : Finset Fd) (es : List Event)
    (h : (machine listenFd reserved).Valid es) :
    (machine listenFd reserved).Along NoReadEnds es ↔
      (machine listenFd reserved).Along
        (fun s e => TornDown ((machine listenFd reserved).next s e)) es ∧
      ((machine listenFd reserved).Along
        (fun s e => (live ((machine listenFd reserved).next s e)).length ≤ tableSize) es →
          (machine listenFd reserved).Along InBounds es) := by
  have hiff : (machine listenFd reserved).Along NoReadEnds es ↔
      (machine listenFd reserved).Along
        (fun s e => TornDown ((machine listenFd reserved).next s e)) es := by
    apply Machine.along_iff_reached ?_ ?_ h
    · exact (tornDown_iff (initial_invariant listenFd reserved)).mpr rfl
    · intro fs e hv he ht
      have hinv := run_invariant hv
      rw [tornDown_iff hinv] at ht
      apply (tornDown_iff (next_invariant hinv he)).trans
      exact (next_ended hinv).trans (and_iff_right ht)
  constructor
  · intro hends
    have htorn := hiff.mp hends
    refine ⟨htorn, fun hlive => ?_⟩
    apply Machine.Along.imp ?_ ((Machine.along_and es).mpr ⟨htorn, hlive⟩)
    rintro s e ⟨ht, hl⟩ hstarted
    have hcount := ht.counted
    change (TcpLoadBalancer.next s.balancer e).connTable.length = (live (next s e)).length at hcount
    rw [next_connTable, List.length_append] at hcount
    have hpos := List.length_pos_iff.mpr hstarted
    change (live (next s e)).length ≤ tableSize at hl
    omega
  · intro hboth
    exact hiff.mpr hboth.1

/-! ## Sessions one after another -/

/-- A client that connects and hangs up; no descriptor is ever free again. -/
def visit (i : ℕ) : List Event := [.accept (2 * i) (2 * i + 1) .connected, .ready (2 * i) .ended 0]

/-- All sessions have ended, and the descriptors from `m` on are free. -/
structure Visited (s : State) (m : ℕ) : Prop where
  opened : ∀ fd ∈ s.balancer.openFds, fd < m
  listen : s.balancer.listenFd < m
  table : s.balancer.connTable = s.sessions
  ended : ∀ c ∈ s.sessions, c ∈ s.ended

theorem Visited.visit (listenFd : Fd) (reserved : Finset Fd) {i : ℕ} (h : Visited s (2 * i)) :
    (machine listenFd reserved).AlongFrom Enabled s (visit i) ∧
      (machine listenFd reserved).AlongFrom (fun s e => (live (next s e)).length ≤ 1) s (visit i) ∧
      Visited ((machine listenFd reserved).runFrom s (visit i)) (2 * (i + 1)) ∧
      ((machine listenFd reserved).runFrom s (visit i)).sessions.length =
        s.sessions.length + 1 := by
  have hfree {fd : ℕ} (hfd : 2 * i ≤ fd) : fd ∉ s.balancer.openFds := fun hopen =>
    absurd (h.opened fd hopen) (Nat.not_lt.mpr hfd)
  have hnext : 2 * i + 1 < 2 * (i + 1) := by omega
  have hup {fd : ℕ} (hfd : fd < 2 * i) : fd < 2 * (i + 1) := by omega
  have hpaired : pairedFd (s.balancer.connTable ++ [⟨2 * i, 2 * i + 1⟩]) (2 * i) =
      some (2 * i + 1) := by
    rw [pairedFd_concat, if_pos rfl]
  have hold (l : List Conn) : s.sessions.filter (fun c => c ∉ s.ended ++ l) = [] := by
    rw [List.filter_eq_nil_iff]
    intro c hc
    simp [h.ended c hc]
  have haccept : next s (.accept (2 * i) (2 * i + 1) .connected) =
      ⟨{ s.balancer with
          openFds := insert (2 * i + 1) (insert (2 * i) s.balancer.openFds)
          connTable := s.balancer.connTable ++ [⟨2 * i, 2 * i + 1⟩]
          currentBackend := s.balancer.currentBackend + 1
          outcomes := s.balancer.outcomes ++ [true] },
        s.sessions ++ [⟨2 * i, 2 * i + 1⟩], s.ended ++ []⟩ := rfl
  have hended (s' : State) (hs : s' = next s (.accept (2 * i) (2 * i + 1) .connected)) :
      next s' (.ready (2 * i) .ended 0) = ⟨s'.balancer, s'.sessions, s'.ended ++
        s'.sessions.filter fun c => c.clientFd = 2 * i ∨ c.backendFd = 2 * i⟩ := by
    have hp : pairedFd s'.balancer.connTable (2 * i) = some (2 * i + 1) := by
      rw [hs]
      exact hpaired
    simp [next, TcpLoadBalancer.next, forwardData, started, endedBy, hp]
  refine ⟨⟨⟨hfree le_rfl, fun _ => ⟨hfree (Nat.le_succ _), Nat.succ_ne_self _⟩⟩,
    ⟨(Nat.ne_of_lt h.listen).symm, trivial⟩, trivial⟩, ⟨?_, ?_, trivial⟩, ?_, ?_⟩
  · change (live (next s _)).length ≤ 1
    rw [haccept, live, List.filter_append, hold]
    exact List.length_filter_le _ _
  · change (live (next (next s _) _)).length ≤ 1
    rw [hended _ rfl, haccept, live]
    simp only [List.filter_append, List.append_assoc, hold]
    exact List.length_filter_le _ _
  · change Visited (next (next s _) _) _
    rw [hended _ rfl, haccept]
    constructor
    · intro fd hfd
      simp only [Finset.mem_insert] at hfd
      rcases hfd with rfl | rfl | hfd
      · exact hnext
      · exact Nat.lt_of_succ_lt hnext
      · exact hup (h.opened fd hfd)
    · exact hup h.listen
    · simp [h.table]
    · intro c hc
      rcases List.mem_append.mp hc with hc | hc
      · simp [h.ended c hc]
      · rw [List.mem_singleton.mp hc]
        simp
  · change (next (next s _) _).sessions.length = _
    rw [hended _ rfl, haccept]
    simp

def visits (start n : ℕ) : List Event := (List.range n).flatMap fun i => visit (start + i)

theorem visits_succ (start n : ℕ) : visits start (n + 1) = visits start n ++ visit (start + n) := by
  simp [visits, List.range_succ]

/-- `n` sessions one after another, never two at a time, fill the first `n` entries. -/
theorem visits_fill (listenFd : Fd) (reserved : Finset Fd) (start : ℕ)
    (hlow : ∀ fd ∈ insert listenFd reserved, fd < 2 * start) (n : ℕ) :
    (machine listenFd reserved).Valid (visits start n) ∧
      (machine listenFd reserved).Along (fun s e => (live (next s e)).length ≤ 1)
        (visits start n) ∧
      Visited ((machine listenFd reserved).run (visits start n)) (2 * (start + n)) ∧
      ((machine listenFd reserved).run (visits start n)).balancer.connTable.length = n := by
  induction n with
  | zero =>
    refine ⟨trivial, trivial, ⟨hlow, hlow _ (Finset.mem_insert_self _ _), rfl, ?_⟩, rfl⟩
    intro c hc
    cases hc
  | succ n ih =>
    obtain ⟨hv, hone, hvisited, hlen⟩ := ih
    obtain ⟨hv', hone', hvisited', hlen'⟩ := hvisited.visit listenFd reserved
    rw [visits_succ]
    refine ⟨(Machine.along_append _ _).mpr ⟨hv, hv'⟩, (Machine.along_append _ _).mpr ⟨hone, hone'⟩,
      ?_, ?_⟩
    · rw [Machine.run_append]
      exact hvisited'
    · rw [Machine.run_append, hvisited'.table, hlen', ← hvisited.table, hlen]

/-- With one session at a time, the table overflows. -/
theorem visits_overflow (listenFd : Fd) (reserved : Finset Fd) (start : ℕ)
    (hlow : ∀ fd ∈ insert listenFd reserved, fd < 2 * start) :
    ∃ es, (machine listenFd reserved).Valid es ∧
      (machine listenFd reserved).Along (fun s e => (live (next s e)).length ≤ 1) es ∧
      ∀ cfd bfd, ¬ (machine listenFd reserved).Along InBounds
        (es ++ [.accept cfd bfd .connected]) := by
  obtain ⟨n, hn⟩ : ∃ n, n = tableSize := ⟨tableSize, rfl⟩
  obtain ⟨hv, hone, -, hlen⟩ := visits_fill listenFd reserved start hlow n
  refine ⟨visits start n, hv, hone, fun cfd bfd hin => ?_⟩
  have hlast := ((Machine.along_concat _ _).mp hin).2 (by simp [started, connectBackend])
  rw [hlen, hn] at hlast
  exact absurd hlast (lt_irrefl _)

/-- A client hangs up, and its session stays in the table with both descriptors open. -/
theorem hung_up_session_stays :
    let es : List Event := [.accept 5 6 .connected, .ready 5 .ended 0]
    let s := (machine 3 {0, 1, 2, 4}).run es
    (machine 3 {0, 1, 2, 4}).Valid es ∧ s.ended = [⟨5, 6⟩] ∧ live s = [] ∧
      s.balancer.connTable = [⟨5, 6⟩] ∧ 5 ∈ s.balancer.openFds ∧ 6 ∈ s.balancer.openFds ∧
      ¬ TornDown s := by
  intro es s
  refine ⟨by decide, by decide, by decide, by decide, by decide, by decide, fun ht => ?_⟩
  exact absurd ht.counted (by decide)

/-- Two sessions exchange data, and a read would block. -/
theorem torn_down_no_hangup :
    let es : List Event := [.accept 5 6 .connected, .accept 7 8 .connected,
      .ready 5 (.data [104, 105]) 2, .ready 8 .wouldBlock 0, .ready 6 (.data [111]) 1]
    (machine 3 {0, 1, 2, 4}).Along
      (fun s e => TornDown ((machine 3 {0, 1, 2, 4}).next s e)) es := by
  intro es
  have hv : (machine 3 {0, 1, 2, 4}).Valid es := by decide +kernel
  exact ((torn_down_iff 3 {0, 1, 2, 4} es hv).mp (by decide +kernel)).1

end TcpSessions
