import LinuxLabs.ForkingBalancer

/-! # The sessions of the forking load balancer (lab 12)
Whatever order the processes run in, a client gets back a part of what it has sent, from the
backend whose turn it was, and a session is released when its child ends. A client that sends
nothing takes a backend out of service for good. -/
namespace ForkingBalancer

open Execution Channel
open CString (Byte)

variable {base : List Fd} {c fd : Option Fd} {k : Session} {s : State}

/-! ## What the backends do -/

def BackendPos.session : BackendPos → Option Session
  | .reading k | .writing k _ | .closing k => some k
  | .accepting | .killed => none

/-- The sessions a backend has or will have, in their order. -/
def State.sessions (s : State) (b : Backend) : List Session :=
  (s.backends b).session.toList ++ s.queue b

def Pos.Dialed : Pos → Prop
  | .forking _ _ | .closingClient _ _ | .closingBackend _ => True
  | _ => False

/-- The session has got a backend, or will get none. -/
def State.Past (s : State) (k : Session) : Prop := k < s.round ∨ k = s.round ∧ s.pos.Dialed

/-- The child has not come past its reply. -/
def ChildPos.Early : ChildPos → Prop
  | .readClient | .writeBackend _ | .readBackend => True
  | _ => False

/-- Its backend has not read from the session. -/
def State.Waits (s : State) (k : Session) : Prop :=
  k ∈ s.queue (s.conns k).backend ∨ s.backends (s.conns k).backend = .reading k

/-- Some process of the balancer still wants a reply. -/
def State.Attended (s : State) (k : Session) : Prop :=
  (∃ c ∈ s.children k, c.pos.Early) ∨ k = s.round ∧ ∃ c fd, s.pos = .forking c fd

def Untouched (cl : Conn) : Prop := cl.toBackend.received = [] ∧ cl.fromBackend.written = []

structure Service (s : State) : Prop where
  answered : ∀ k, (s.conns k).fromBackend.written <+: (s.conns k).toBackend.received
  bounded : ∀ k, (s.conns k).toBackend.received.length ≤ bufSize - 1
  waiting : ∀ b k, k ∈ s.queue b ∨ s.backends b = .reading k → Untouched (s.conns k)
  writing : ∀ b k buf, s.backends b = .writing k buf → buf ≠ [] ∧
    (s.conns k).toBackend.received = buf ∧ (s.conns k).fromBackend.written = []
  placed : ∀ b, ∀ k ∈ s.sessions b,
    (s.conns k).backend = b ∧ (s.conns k).backendClosed = false ∧ s.Past k
  nodup : ∀ b, (s.sessions b).Nodup
  future : ∀ k, ¬ s.Past k → Untouched (s.conns k) ∧ (s.conns k).backendClosed = false
  early : ∀ k, ∀ c ∈ s.children k, (s.conns k).fromBackend.written = [] →
    (s.conns k).backendClosed = false → c.pos.Early
  attended : ∀ k, s.Attended k → (s.conns k).toBackend.received = [] → s.Waits k
  alive : ∀ b, s.backends b ≠ .killed

theorem service_initial (base : List Fd) : Service (initial base) where
  answered _ := List.prefix_rfl
  bounded _ := Nat.zero_le _
  waiting := by simp [initial]
  writing := by simp [initial]
  placed := by simp [initial, State.sessions, BackendPos.session]
  nodup _ := List.nodup_nil
  future _ _ := ⟨⟨rfl, rfl⟩, rfl⟩
  early := by simp [initial]
  attended := by simp [initial, State.Attended]
  alive := by simp [initial]

/-- What the backends look at. -/
structure SameService (cl cl' : Conn) : Prop where
  received : cl'.toBackend.received = cl.toBackend.received
  written : cl'.fromBackend.written = cl.fromBackend.written
  backend : cl'.backend = cl.backend
  closed : cl'.backendClosed = cl.backendClosed

theorem SameService.refl (cl : Conn) : SameService cl cl := ⟨rfl, rfl, rfl, rfl⟩

/-- A step of another party. -/
theorem Service.transfer (h : Service s) {s' : State} (hq : s'.queue = s.queue)
    (hb : s'.backends = s.backends) (hpast : ∀ k, s.Past k → s'.Past k)
    (hsame : ∀ k, SameService (s.conns k) (s'.conns k))
    (hattended : ∀ k, s'.Attended k → s.Attended k)
    (hearly : ∀ k, ∀ c ∈ s'.children k, (s.conns k).fromBackend.written = [] →
      (s.conns k).backendClosed = false → c.pos.Early) : Service s' := by
  have huntouched (k : Session) (hk : Untouched (s.conns k)) : Untouched (s'.conns k) := by
    rw [Untouched, (hsame k).received, (hsame k).written]
    exact hk
  refine ⟨?_, ?_, ?_, ?_, ?_, ?_, ?_, ?_, ?_, ?_⟩
  · intro k
    rw [(hsame k).received, (hsame k).written]
    exact h.answered k
  · intro k
    rw [(hsame k).received]
    exact h.bounded k
  · intro b k hk
    rw [hq, hb] at hk
    exact huntouched k (h.waiting b k hk)
  · intro b k buf hk
    rw [hb] at hk
    rw [(hsame k).received, (hsame k).written]
    exact h.writing b k buf hk
  · intro b k hk
    rw [State.sessions, hq, hb] at hk
    obtain ⟨hbackend, hclosed, hp⟩ := h.placed b k hk
    rw [(hsame k).backend, (hsame k).closed]
    exact ⟨hbackend, hclosed, hpast k hp⟩
  · intro b
    rw [State.sessions, hq, hb]
    exact h.nodup b
  · intro k hk
    obtain ⟨hu, hclosed⟩ := h.future k fun hp => hk (hpast k hp)
    rw [(hsame k).closed]
    exact ⟨huntouched k hu, hclosed⟩
  · intro k c hc
    rw [(hsame k).written, (hsame k).closed]
    exact hearly k c hc
  · intro k hk
    rw [State.Waits, (hsame k).received, (hsame k).backend, hq, hb]
    exact h.attended k (hattended k hk)
  · intro b
    rw [hb]
    exact h.alive b

theorem Service.keep (h : Service s) {table : Table} {pos : Pos} {b : Backend} {round : Session}
    (hr : s.round < round ∨ s.round = round ∧ (s.pos.Dialed → pos.Dialed))
    (hf : ∀ c fd, pos ≠ .forking c fd) :
    Service { s with table := table, pos := pos, nextBackend := b, round := round } := by
  refine h.transfer rfl rfl ?_ (fun k => .refl _) ?_ h.early
  · intro k hk
    rcases hr with hlt | ⟨rfl, hd⟩
    · refine Or.inl ?_
      rcases hk with hk | ⟨rfl, -⟩
      · exact hk.trans hlt
      · exact hlt
    · exact hk.imp_right fun hk => ⟨hk.1, hd hk.2⟩
  · rintro k (hc | ⟨-, c, fd, hpos⟩)
    · exact Or.inl hc
    · exact absurd hpos (hf c fd)

theorem mem_enqueue {queue : Backend → List Session} {b b' : Backend} {j : Session}
    (hk : k ∈ Function.update queue b (queue b ++ [j]) b') : k ∈ queue b' ∨ b' = b ∧ k = j := by
  by_cases hb : b' = b
  · subst hb
    simpa using hk
  · rw [Function.update_of_ne hb] at hk
    exact Or.inl hk

/-- The new session is the last in the queue of its backend. -/
theorem service_connected (h : Service s) {c fd : Option Fd} {b : Backend}
    (hpos : s.pos = .connecting c b fd) :
    Service { s.setConn s.round { s.conns s.round with backend := b } with
      queue := Function.update s.queue b (s.queue b ++ [s.round]), pos := .forking c fd } := by
  have hnew : ¬ s.Past s.round := by
    rintro (hlt | ⟨-, hd⟩)
    · exact Nat.lt_irrefl _ hlt
    · rw [hpos] at hd
      exact hd
  obtain ⟨hu, hclosed⟩ := h.future _ hnew
  have hmem {b' : Backend} {k : Session} (hk : k ∈ s.queue b') :
      k ∈ Function.update s.queue b (s.queue b ++ [s.round]) b' := by
    by_cases hb : b' = b
    · subst hb
      rw [Function.update_self]
      exact List.mem_append_left _ hk
    · rwa [Function.update_of_ne hb]
  have hold {b' : Backend} {k : Session} (hk : k ∈ s.sessions b') : k ≠ s.round := by
    rintro rfl
    exact hnew (h.placed b' _ hk).2.2
  generalize hs' : ({ s.setConn s.round { s.conns s.round with backend := b } with
    queue := Function.update s.queue b (s.queue b ++ [s.round])
    pos := .forking c fd } : State) = s'
  have hconn (k : Session) (hk : k ≠ s.round) : s'.conns k = s.conns k := by
    rw [← hs']
    exact Function.update_of_ne hk _ _
  have hround : s'.conns s.round = { s.conns s.round with backend := b } := by
    rw [← hs']
    exact Function.update_self _ _ _
  have hsame (k : Session) : (s'.conns k).toBackend = (s.conns k).toBackend ∧
      (s'.conns k).fromBackend = (s.conns k).fromBackend ∧
      (s'.conns k).backendClosed = (s.conns k).backendClosed := by
    by_cases hk : k = s.round
    · subst hk
      rw [hround]
      exact ⟨rfl, rfl, rfl⟩
    · rw [hconn k hk]
      exact ⟨rfl, rfl, rfl⟩
  have hq' : s'.queue = Function.update s.queue b (s.queue b ++ [s.round]) := by rw [← hs']
  have hb' : s'.backends = s.backends := by rw [← hs']; rfl
  have hc' : s'.children = s.children := by rw [← hs']; rfl
  have hpast (k : Session) (hk : s.Past k) : s'.Past k := by
    rw [← hs']
    exact hk.imp_right fun hk => ⟨hk.1, trivial⟩
  refine ⟨?_, ?_, ?_, ?_, ?_, ?_, ?_, ?_, ?_, ?_⟩
  · intro k
    rw [(hsame k).1, (hsame k).2.1]
    exact h.answered k
  · intro k
    rw [(hsame k).1]
    exact h.bounded k
  · rintro b' k hk
    rw [Untouched, (hsame k).1, (hsame k).2.1]
    rw [hq', hb'] at hk
    rcases hk with hk | hk
    · rcases mem_enqueue hk with hk | ⟨-, rfl⟩
      · exact h.waiting b' k (Or.inl hk)
      · exact hu
    · exact h.waiting b' k (Or.inr hk)
  · intro b' k buf hk
    rw [(hsame k).1, (hsame k).2.1]
    rw [hb'] at hk
    exact h.writing b' k buf hk
  · intro b' k hk
    rw [State.sessions, hb', hq'] at hk
    rw [(hsame k).2.2]
    have hk' : k ∈ s.sessions b' ∨ b' = b ∧ k = s.round := by
      rcases List.mem_append.mp hk with hk | hk
      · exact Or.inl (List.mem_append_left _ hk)
      · exact (mem_enqueue hk).imp_left (List.mem_append_right _)
    rcases hk' with hk' | ⟨rfl, rfl⟩
    · obtain ⟨hbackend, hc, hp⟩ := h.placed b' k hk'
      rw [hconn k (hold hk')]
      exact ⟨hbackend, hc, hpast k hp⟩
    · rw [hround]
      refine ⟨rfl, hclosed, ?_⟩
      rw [← hs']
      exact Or.inr ⟨rfl, trivial⟩
  · intro b'
    have hn := h.nodup b'
    rw [State.sessions, hb', hq']
    by_cases hb : b' = b
    · subst hb
      have hlast : s.round ∉ s.sessions b' := fun hr => hold hr rfl
      rw [Function.update_self, ← List.append_assoc]
      exact List.Nodup.append hn (List.nodup_singleton _) (List.disjoint_singleton.mpr hlast)
    · rw [Function.update_of_ne hb]
      exact hn
  · intro k hk
    rw [Untouched, (hsame k).1, (hsame k).2.1, (hsame k).2.2]
    exact h.future k fun hp => hk (hpast k hp)
  · intro k ch hch
    rw [(hsame k).2.1, (hsame k).2.2]
    rw [hc'] at hch
    exact h.early k ch hch
  · intro k hk hr
    rw [State.Waits, hq', hb']
    by_cases hkr : k = s.round
    · subst hkr
      refine Or.inl ?_
      rw [hround, Function.update_self]
      exact List.mem_append_right _ (List.mem_singleton_self _)
    · have hatt : s.Attended k := by
        rcases hk with hk | ⟨heq, -⟩
        · rw [hc'] at hk
          exact Or.inl hk
        · rw [← hs'] at heq
          exact absurd heq hkr
      rw [hconn k hkr] at hr ⊢
      exact (h.attended k hatt hr).imp_left hmem
  · intro b'
    rw [hb']
    exact h.alive b'

theorem service_parent (h : Service s) {s' : State} (hs : ParentStep s s') : Service s' := by
  cases hs with
  | report hpos | accept _ hpos | socket _ _ _ hpos | refused _ _ _ hpos =>
    exact h.keep (Or.inr ⟨rfl, by simp [hpos, Pos.Dialed]⟩) (by simp)
  | connected c b fd hpos => exact service_connected h hpos
  | drop | closeBackend => exact h.keep (Or.inl s.round.lt_succ_self) (by simp)
  | forked c fd hpos =>
    refine h.transfer rfl rfl ?_ (fun k => .refl _) ?_ ?_
    · exact fun k hk => hk.imp_right fun hk => ⟨hk.1, trivial⟩
    · rintro k (hc | ⟨-, _, _, hp⟩)
      · by_cases hk : k = s.round
        · exact Or.inr ⟨hk, c, fd, hpos⟩
        · simp only [State.setChild, Function.update_of_ne hk] at hc
          exact Or.inl hc
      · cases hp
    · intro k ch hch
      by_cases hk : k = s.round
      · subst hk
        simp only [State.setChild, Function.update_self, Option.mem_some_iff] at hch
        subst hch
        exact fun _ _ => trivial
      · simp only [State.setChild, Function.update_of_ne hk] at hch
        exact h.early k ch hch
  | unforked | closeClient => exact h.keep (Or.inr ⟨rfl, fun _ => trivial⟩) (by simp)

theorem ChildStep.sameService {cl cl' : Conn} {c c' : Child} (hs : ChildStep cl c cl' c') :
    SameService cl cl' := by
  cases hs with
  | readBackend n => exact ⟨rfl, Stream.written_read _ _, rfl, rfl⟩
  | _ => exact ⟨rfl, rfl, rfl, rfl⟩

/-- A child that comes past its reply has read one, or its backend has closed. -/
theorem ChildStep.early {cl cl' : Conn} {c c' : Child} (hs : ChildStep cl c cl' c')
    (hw : cl.fromBackend.written = []) (hclosed : cl.backendClosed = false)
    (h : c.pos.Early) : c'.pos.Early := by
  cases hs with
  | readBackend n hp hn => exact absurd (Stream.pending_of_written hw) hn
  | skipBackend hp hc | killedBackend buf hp hc => exact absurd (hclosed.symm.trans hc) (by simp)
  | readClient n hp | skipClient hp | writeBackend buf m hp =>
    simp [Child.advance, ChildPos.then, hp, ChildPos.Early]
  | writeClient buf m hp | mute buf hp | killedClient buf hp | exit hp =>
    simp [hp, ChildPos.Early] at h
  | close hp => cases hpos : c.pos <;> simp [hpos, ChildPos.Closes, ChildPos.Early] at hp h

theorem ChildStep.early_before {cl cl' : Conn} {c c' : Child} (hs : ChildStep cl c cl' c')
    (h : c'.pos.Early) : c.pos.Early := by
  cases hs with
  | readClient n hp | skipClient hp | writeBackend buf m hp | readBackend n hp
  | skipBackend hp | killedBackend buf hp => simp [hp, ChildPos.Early]
  | writeClient buf m hp | mute buf hp =>
    simp [Child.advance, ChildPos.then, hp, ChildPos.Early] at h
  | killedClient | exit => exact h.elim
  | close hp =>
    cases hpos : c.pos <;> simp [hpos, ChildPos.Closes] at hp
    all_goals simp [Child.advance, ChildPos.then, hpos, ChildPos.Early] at h

theorem service_child (h : Service s) {c c' : Child} (hc : c ∈ s.children k) {cl : Conn}
    (hs : ChildStep (s.conns k) c cl c') : Service ((s.setConn k cl).setChild k c') := by
  have hchild {j : Session} {d : Child}
      (hd : d ∈ ((s.setConn k cl).setChild k c').children j) :
      j = k ∧ d = c' ∨ d ∈ s.children j := by
    by_cases hj : j = k
    · subst hj
      simp only [State.setChild, Function.update_self, Option.mem_some_iff] at hd
      exact Or.inl ⟨rfl, hd.symm⟩
    · simp only [State.setChild, State.setConn, Function.update_of_ne hj] at hd
      exact Or.inr hd
  refine h.transfer rfl rfl (fun _ hk => hk) ?_ ?_ ?_
  · intro j
    by_cases hj : j = k
    · subst hj
      simp only [State.setChild, State.setConn, Function.update_self]
      exact hs.sameService
    · simp only [State.setChild, State.setConn, Function.update_of_ne hj]
      exact .refl _
  · rintro j (⟨d, hd, he⟩ | hf)
    · rcases hchild hd with ⟨rfl, rfl⟩ | hd
      · exact Or.inl ⟨c, hc, hs.early_before he⟩
      · exact Or.inl ⟨d, hd, he⟩
    · exact Or.inr hf
  · intro j d hd hw hclosed
    rcases hchild hd with ⟨rfl, rfl⟩ | hd
    · exact hs.early hw hclosed (h.early j c hc hw hclosed)
    · exact h.early j d hd hw hclosed

/-- A process that wants a reply has the connection to its backend open. -/
theorem Tables.held (ht : Tables base s) (h : s.Attended k) : s.Held (.backend k) := by
  rcases h with ⟨c, hc, he⟩ | ⟨rfl, c, fd, hpos⟩
  · refine Or.inr ⟨k, ?_, c, hc, ?_⟩
    · rw [List.mem_range]
      rcases ht.started k c hc with hlt | ⟨rfl, -⟩
      · exact hlt.trans (Nat.lt_succ_self _)
      · exact Nat.lt_succ_self _
    · obtain ⟨-, hb, htable⟩ := ht.child k c hc
      cases hpos : c.pos <;> simp only [hpos, ChildPos.Early] at he htable
      all_goals
        rw [htable]
        exact holds_backend hb
  · refine Or.inl ?_
    rw [ht.parent, hpos]
    exact holds_backend (ht.dialed c fd hpos)

/-- Data that the backend has read came from a child that waits for the reply. -/
theorem attended_of_received (hr : Relay s) (h : Service s)
    (hread : (s.conns k).toBackend.received ≠ []) (hw : (s.conns k).fromBackend.written = [])
    (hclosed : (s.conns k).backendClosed = false) : s.Attended k := by
  have hcarried := hr k
  cases hc : s.children k with
  | none =>
    rw [hc] at hcarried
    exact absurd (Stream.received_of_written hcarried.2.1) hread
  | some c => exact Or.inl ⟨c, hc, h.early k c hc hw hclosed⟩

theorem mem_sessions {b : Backend} (h : k ∈ s.queue b ∨ s.backends b = .reading k) :
    k ∈ s.sessions b := by
  rcases h with h | h
  · exact List.mem_append_right _ h
  · rw [State.sessions, h]
    exact List.mem_append_left _ (List.mem_singleton_self _)

/-- A session has one backend. -/
theorem Service.unique (h : Service s) {b b' : Backend} (hb : k ∈ s.sessions b)
    (hb' : k ∈ s.sessions b') : b' = b := (h.placed b' k hb').1.symm.trans (h.placed b k hb).1

/-- The session a backend has taken is in no queue. -/
theorem Service.taken (h : Service s) {b b' : Backend} (hk : (s.backends b).session = some k) :
    k ∉ s.queue b' := by
  intro hq
  have hb : k ∈ s.sessions b := by
    rw [State.sessions, hk]
    exact List.mem_append_left _ (List.mem_singleton_self _)
  obtain rfl := h.unique hb (List.mem_append_right _ hq)
  have hn := h.nodup b'
  rw [State.sessions, hk] at hn
  exact (List.nodup_cons.mp hn).1 hq

theorem Service.taken_unique (h : Service s) {b b' : Backend}
    (hk : (s.backends b).session = some k) (hk' : (s.backends b').session = some k) : b' = b := by
  refine h.unique (k := k) ?_ ?_
  · rw [State.sessions, hk]
    exact List.mem_append_left _ (List.mem_singleton_self _)
  · rw [State.sessions, hk']
    exact List.mem_append_left _ (List.mem_singleton_self _)

/-- What a step of a backend on its session sets, and what it leaves alone. -/
structure Exchange (s s' : State) (k : Session) (cl : Conn) (b : Backend) (p : BackendPos) :
    Prop where
  conn : ∀ j ≠ k, s'.conns j = s.conns j
  self : s'.conns k = cl
  back : ∀ b' ≠ b, s'.backends b' = s.backends b'
  set : s'.backends b = p
  queue : s'.queue = s.queue
  children : s'.children = s.children
  past : ∀ j, s'.Past j = s.Past j
  attended : ∀ j, s'.Attended j = s.Attended j

theorem exchange (s : State) (k : Session) (cl : Conn) (b : Backend) (p : BackendPos) :
    Exchange s ((s.setConn k cl).setBackend b p) k cl b p where
  conn _ hj := Function.update_of_ne hj _ _
  self := Function.update_self _ _ _
  back _ hb := Function.update_of_ne hb _ _
  set := Function.update_self _ _ _
  queue := rfl
  children := rfl
  past _ := rfl
  attended _ := rfl

/-- A backend goes on with the session it has taken. -/
theorem service_progress (h : Service s) {b : Backend} {p : BackendPos} {cl : Conn}
    (hk : (s.backends b).session = some k) (hp : p.session = some k)
    (hread : ∀ j, p ≠ .reading j)
    (hbackend : cl.backend = (s.conns k).backend)
    (hclosed : cl.backendClosed = (s.conns k).backendClosed)
    (hanswered : cl.fromBackend.written <+: cl.toBackend.received)
    (hbounded : cl.toBackend.received.length ≤ bufSize - 1)
    (hwriting : ∀ buf, p = .writing k buf → buf ≠ [] ∧ cl.toBackend.received = buf ∧
      cl.fromBackend.written = [])
    (hwritten : cl.fromBackend.written = [] → (s.conns k).fromBackend.written = [])
    (hquiet : s.Attended k → cl.toBackend.received ≠ []) :
    Service ((s.setConn k cl).setBackend b p) := by
  have hstep := exchange s k cl b p
  generalize (s.setConn k cl).setBackend b p = s' at hstep ⊢
  obtain ⟨hconn, hself, hback, hbself, hqueue, hchildren, hpast, hatt⟩ := hstep
  have hsessions (b' : Backend) : s'.sessions b' = s.sessions b' := by
    by_cases hb : b' = b
    · subst hb
      rw [State.sessions, State.sessions, hqueue, hbself, hp, hk]
    · rw [State.sessions, State.sessions, hqueue, hback b' hb]
  have hmem : k ∈ s.sessions b := by
    rw [State.sessions, hk]
    exact List.mem_append_left _ (List.mem_singleton_self _)
  refine ⟨?_, ?_, ?_, ?_, ?_, ?_, ?_, ?_, ?_, ?_⟩
  · intro j
    by_cases hj : j = k
    · subst hj
      rwa [hself]
    · rw [hconn j hj]
      exact h.answered j
  · intro j
    by_cases hj : j = k
    · subst hj
      rwa [hself]
    · rw [hconn j hj]
      exact h.bounded j
  · intro b' j hj
    have hb : s'.backends b' = .reading j → b' ≠ b := by
      rintro hr rfl
      exact hread j (hbself.symm.trans hr)
    have hj' : j ∈ s.queue b' ∨ s.backends b' = .reading j := by
      rw [hqueue] at hj
      exact hj.imp_right fun hr => (hback b' (hb hr)).symm.trans hr
    have hne : j ≠ k := by
      rintro rfl
      rcases hj' with hq | hr
      · exact h.taken hk hq
      · have hbb : b' = b := h.taken_unique hk (by rw [hr]; rfl)
        subst hbb
        rw [hqueue] at hj
        rcases hj with hq | hr'
        · exact h.taken hk hq
        · exact hb hr' rfl
    rw [hconn j hne]
    exact h.waiting b' j hj'
  · intro b' j buf hj
    by_cases hb : b' = b
    · subst hb
      have hpj := hbself.symm.trans hj
      have hjk : j = k := by
        rw [hpj] at hp
        exact Option.some.inj hp
      subst hjk
      rw [hself]
      exact hwriting buf hpj
    · rw [hback b' hb] at hj
      have hne : j ≠ k := by
        rintro rfl
        exact hb (h.taken_unique hk (by rw [hj]; rfl))
      rw [hconn j hne]
      exact h.writing b' j buf hj
  · intro b' j hj
    rw [hsessions] at hj
    obtain ⟨h1, h2, h3⟩ := h.placed b' j hj
    rw [hpast]
    by_cases hjk : j = k
    · subst hjk
      rw [hself, hbackend, hclosed]
      exact ⟨h1, h2, h3⟩
    · rw [hconn j hjk]
      exact ⟨h1, h2, h3⟩
  · intro b'
    rw [hsessions]
    exact h.nodup b'
  · intro j hj
    rw [hpast] at hj
    have hjk : j ≠ k := by
      rintro rfl
      exact hj (h.placed b j hmem).2.2
    rw [hconn j hjk]
    exact h.future j hj
  · intro j c hc
    rw [hchildren] at hc
    by_cases hjk : j = k
    · subst hjk
      rw [hself, hclosed]
      exact fun hw => h.early j c hc (hwritten hw)
    · rw [hconn j hjk]
      exact h.early j c hc
  · intro j hj hr
    rw [hatt] at hj
    have hjk : j ≠ k := by
      rintro rfl
      rw [hself] at hr
      exact hquiet hj hr
    rw [hconn j hjk] at hr
    have hw := h.attended j hj hr
    rw [State.Waits, hconn j hjk, hqueue]
    refine hw.imp_right fun hreading => ?_
    rw [hback, hreading]
    intro hb
    rw [hb] at hreading
    rw [hreading] at hk
    exact hjk (Option.some.inj hk)
  · intro b'
    by_cases hb : b' = b
    · subst hb
      rw [hbself]
      rintro rfl
      cases hp
    · rw [hback b' hb]
      exact h.alive b'

/-- The order of the sessions of a backend does not change when it takes the next one. -/
theorem service_accept (h : Service s) {b : Backend} {rest : List Session}
    (hp : s.backends b = .accepting) (hq : s.queue b = k :: rest) :
    Service { s.setBackend b (.reading k) with queue := Function.update s.queue b rest } := by
  generalize hs' :
    ({ s.setBackend b (.reading k) with queue := Function.update s.queue b rest } : State) = s'
  have hconns : s'.conns = s.conns := by rw [← hs']; rfl
  have hchildren : s'.children = s.children := by rw [← hs']; rfl
  have hself : s'.backends b = .reading k := by
    rw [← hs']
    exact Function.update_self _ _ _
  have hback (b' : Backend) (hb : b' ≠ b) : s'.backends b' = s.backends b' := by
    rw [← hs']
    exact Function.update_of_ne hb _ _
  have hqself : s'.queue b = rest := by
    rw [← hs']
    exact Function.update_self _ _ _
  have hqueue (b' : Backend) (hb : b' ≠ b) : s'.queue b' = s.queue b' := by
    rw [← hs']
    exact Function.update_of_ne hb _ _
  have hsessions (b' : Backend) : s'.sessions b' = s.sessions b' := by
    by_cases hb : b' = b
    · subst hb
      rw [State.sessions, State.sessions, hself, hqself, hp, hq]
      rfl
    · rw [State.sessions, State.sessions, hback b' hb, hqueue b' hb]
  have hwaits (b' : Backend) (j : Session) :
      j ∈ s'.queue b' ∨ s'.backends b' = .reading j ↔
        j ∈ s.queue b' ∨ s.backends b' = .reading j := by
    by_cases hb : b' = b
    · subst hb
      rw [hself, hqself, hp, hq, List.mem_cons, BackendPos.reading.injEq, eq_comm (a := k)]
      simp [or_comm]
    · rw [hback b' hb, hqueue b' hb]
  have hpast (j : Session) : s'.Past j = s.Past j := by rw [← hs']; rfl
  have hatt (j : Session) : s'.Attended j = s.Attended j := by rw [← hs']; rfl
  refine ⟨?_, ?_, ?_, ?_, ?_, ?_, ?_, ?_, ?_, ?_⟩
  · intro j
    rw [hconns]
    exact h.answered j
  · intro j
    rw [hconns]
    exact h.bounded j
  · intro b' j hj
    rw [hconns]
    exact h.waiting b' j ((hwaits b' j).mp hj)
  · intro b' j buf hj
    have hb : b' ≠ b := by
      rintro rfl
      rw [hself] at hj
      cases hj
    rw [hback b' hb] at hj
    rw [hconns]
    exact h.writing b' j buf hj
  · intro b' j hj
    rw [hsessions] at hj
    rw [hconns, hpast]
    exact h.placed b' j hj
  · intro b'
    rw [hsessions]
    exact h.nodup b'
  · intro j hj
    rw [hpast] at hj
    rw [hconns]
    exact h.future j hj
  · intro j c hc
    rw [hchildren] at hc
    rw [hconns]
    exact h.early j c hc
  · intro j hj hr
    rw [hatt] at hj
    rw [hconns] at hr
    rw [State.Waits, hconns]
    exact (hwaits _ j).mpr (h.attended j hj hr)
  · intro b'
    by_cases hb : b' = b
    · subst hb
      rw [hself]
      simp
    · rw [hback b' hb]
      exact h.alive b'

/-- A backend that closes has nothing more to do with the session. -/
theorem service_close (h : Service s) {b : Backend} (hp : s.backends b = .closing k) :
    Service ((s.setConn k { s.conns k with backendClosed := true }).setBackend b .accepting) := by
  have hk : (s.backends b).session = some k := by rw [hp]; rfl
  have hstep := exchange s k { s.conns k with backendClosed := true } b .accepting
  generalize (s.setConn k { s.conns k with backendClosed := true }).setBackend b .accepting = s'
    at hstep ⊢
  obtain ⟨hconn, hself, hback, hbself, hqueue, hchildren, hpast, hatt⟩ := hstep
  have hsame (j : Session) : (s'.conns j).toBackend = (s.conns j).toBackend ∧
      (s'.conns j).fromBackend = (s.conns j).fromBackend ∧
      (s'.conns j).backend = (s.conns j).backend := by
    by_cases hj : j = k
    · subst hj
      rw [hself]
      exact ⟨rfl, rfl, rfl⟩
    · rw [hconn j hj]
      exact ⟨rfl, rfl, rfl⟩
  have hmem : k ∈ s.sessions b := by
    rw [State.sessions, hk]
    exact List.mem_append_left _ (List.mem_singleton_self _)
  have hreading (b' : Backend) (j : Session) (hj : s'.backends b' = .reading j) :
      s.backends b' = .reading j := by
    have hb : b' ≠ b := by
      rintro rfl
      rw [hbself] at hj
      cases hj
    rwa [hback b' hb] at hj
  have hold {b' : Backend} {j : Session} (hj : j ∈ s'.sessions b') : j ∈ s.sessions b' ∧ j ≠ k := by
    by_cases hb : b' = b
    · subst hb
      rw [State.sessions, hbself, hqueue] at hj
      have hjq : j ∈ s.queue b' := hj
      refine ⟨List.mem_append_right _ hjq, ?_⟩
      rintro rfl
      exact h.taken hk hjq
    · rw [State.sessions, hback b' hb, hqueue] at hj
      refine ⟨hj, ?_⟩
      rintro rfl
      exact hb (h.unique hmem hj)
  refine ⟨?_, ?_, ?_, ?_, ?_, ?_, ?_, ?_, ?_, ?_⟩
  · intro j
    rw [(hsame j).1, (hsame j).2.1]
    exact h.answered j
  · intro j
    rw [(hsame j).1]
    exact h.bounded j
  · intro b' j hj
    rw [hqueue] at hj
    rw [Untouched, (hsame j).1, (hsame j).2.1]
    exact h.waiting b' j (hj.imp_right (hreading b' j))
  · intro b' j buf hj
    have hb : b' ≠ b := by
      rintro rfl
      rw [hbself] at hj
      cases hj
    rw [hback b' hb] at hj
    rw [(hsame j).1, (hsame j).2.1]
    exact h.writing b' j buf hj
  · intro b' j hj
    obtain ⟨hj, hne⟩ := hold hj
    rw [hconn j hne, hpast]
    exact h.placed b' j hj
  · intro b'
    by_cases hb : b' = b
    · subst hb
      rw [State.sessions, hbself, hqueue]
      exact (List.nodup_append.mp (h.nodup b')).2.1
    · rw [State.sessions, hback b' hb, hqueue]
      exact h.nodup b'
  · intro j hj
    rw [hpast] at hj
    have hjk : j ≠ k := by
      rintro rfl
      exact hj (h.placed b j hmem).2.2
    rw [hconn j hjk]
    exact h.future j hj
  · intro j c hc hw hclosed
    rw [hchildren] at hc
    by_cases hjk : j = k
    · subst hjk
      rw [hself] at hclosed
      cases hclosed
    · rw [hconn j hjk] at hw hclosed
      exact h.early j c hc hw hclosed
  · intro j hj hr
    rw [hatt] at hj
    rw [(hsame j).1] at hr
    have hw := h.attended j hj hr
    rw [State.Waits, (hsame j).2.2, hqueue]
    refine hw.imp_right fun hreading => ?_
    have hb : (s.conns j).backend ≠ b := by
      intro hb
      rw [hb, hp] at hreading
      cases hreading
    rwa [hback _ hb]
  · intro b'
    by_cases hb : b' = b
    · subst hb
      rw [hbself]
      simp
    · rw [hback b' hb]
      exact h.alive b'

theorem service_backend (ht : Tables base s) (hr : Relay s) (h : Service s) {b : Backend}
    {s' : State} (hs : BackendStep s b s') : Service s' := by
  have hopen {k : Session} (hk : (s.backends b).session = some k) :
      (s.conns k).backendClosed = false := by
    refine (h.placed b k ?_).2.1
    rw [State.sessions, hk]
    exact List.mem_append_left _ (List.mem_singleton_self _)
  cases hs with
  | accept k rest hp hq => exact service_accept h hp hq
  | read k n hp hn hcap hlen =>
    obtain ⟨hreceived, hw⟩ := h.waiting b k (Or.inr hp)
    have htake : (s.conns k).toBackend.pending.take n ≠ [] := by
      intro hnil
      have := congrArg List.length hnil
      rw [List.length_take, List.length_nil] at this
      omega
    refine service_progress h (k := k) (by rw [hp]; rfl) rfl (by simp) rfl rfl ?_ ?_ ?_
      (fun _ => hw) ?_
    · rw [hw]
      exact List.nil_prefix
    · rw [Stream.received_read, hreceived, List.nil_append, List.length_take]
      omega
    · rintro buf heq
      cases heq
      rw [Stream.received_read, hreceived, List.nil_append]
      exact ⟨htake, rfl, hw⟩
    · intro _
      rw [Stream.received_read, hreceived, List.nil_append]
      exact htake
  | skip k hp hheld =>
    obtain ⟨hreceived, hw⟩ := h.waiting b k (Or.inr hp)
    have hnext : Service ((s.setConn k (s.conns k)).setBackend b (.closing k)) :=
      service_progress h (k := k) (by rw [hp]; rfl) rfl (by simp) rfl rfl (h.answered k)
        (h.bounded k) (by simp) (fun hw => hw) (fun ha => absurd (ht.held ha) hheld)
    rwa [setConn_self] at hnext
  | write k buf m hp =>
    obtain ⟨hne, hreceived, hw⟩ := h.writing b k buf hp
    refine service_progress h (k := k) (by rw [hp]; rfl) rfl (by simp) rfl rfl ?_ (h.bounded k)
      (by simp) (fun _ => hw) ?_
    · rw [Stream.written_write, hw, hreceived]
      exact List.take_prefix _ _
    · intro _
      rwa [hreceived]
  | killed k buf hp hheld =>
    obtain ⟨hne, hreceived, hw⟩ := h.writing b k buf hp
    refine absurd (ht.held ?_) hheld
    refine attended_of_received hr h ?_ hw (hopen (by rw [hp]; rfl))
    rwa [hreceived]
  | close k hp => exact service_close h hp

theorem service_next (ht : Tables base s) (hr : Relay s) (h : Service s) {e : Event}
    (he : Enabled s e) : Service (next s e) := by
  cases e with
  | parent e => exact service_parent h (parent_step he)
  | child k e =>
    obtain ⟨c, hc, he⟩ := he
    obtain ⟨cl, c', heq, hs⟩ := child_step (ht.child k c hc) he
    simp only [next, Option.mem_def.mp hc, heq]
    exact service_child h hc hs
  | backend b e => exact service_backend ht hr h (backend_step he)
  | send k bytes | hangup k =>
    refine h.transfer rfl rfl (fun _ hk => hk) ?_ (fun _ hk => hk) h.early
    intro j
    by_cases hj : j = k
    · subst hj
      simp only [next, State.setConn, Function.update_self]
      exact ⟨rfl, rfl, rfl, rfl⟩
    · simp only [next, State.setConn, Function.update_of_ne hj]
      exact .refl _

/-! ## Whose turn it is -/

/-- The backend of the round under way. -/
def Pos.dials : Pos → Option Backend
  | .dialing _ b | .connecting _ b _ => some b
  | _ => none

def Pos.Idle : Pos → Prop
  | .waiting | .accepting => True
  | _ => False

structure Turn (s : State) : Prop where
  idle : s.pos.Idle → s.nextBackend = turn s.round
  busy : ¬ s.pos.Idle → s.nextBackend = turn (s.round + 1)
  dials : ∀ b ∈ s.pos.dials, b = turn s.round
  placed : ∀ b, ∀ k ∈ s.sessions b, b = turn k

theorem turn_initial (base : List Fd) : Turn (initial base) where
  idle _ := rfl
  busy h := absurd trivial h
  dials := by simp [initial, Pos.dials]
  placed := by simp [initial, State.sessions, BackendPos.session]

theorem turn_parent (h : Turn s) {s' : State} (hs : ParentStep s s') : Turn s' := by
  obtain ⟨hidle, hbusy, hdials, hplaced⟩ := h
  cases hs with
  | report hp =>
    exact ⟨fun _ => hidle (by rw [hp]; trivial), fun hn => absurd trivial hn, by simp [Pos.dials],
      hplaced⟩
  | accept fd hp =>
    have hturn := hidle (by rw [hp]; trivial)
    refine ⟨by simp [Pos.Idle], fun _ => ?_, ?_, hplaced⟩
    · rw [hturn, turn_succ]
    · simpa [Pos.dials] using hturn
  | socket c b fd hp =>
    rw [hp] at hdials
    exact ⟨by simp [Pos.Idle], fun _ => hbusy (by simp [hp, Pos.Idle]), hdials, hplaced⟩
  | connected c b fd hp =>
    rw [hp] at hdials
    refine ⟨by simp [Pos.Idle], fun _ => hbusy (by simp [hp, Pos.Idle]), by simp [Pos.dials], ?_⟩
    intro b' k hk
    rcases List.mem_append.mp hk with hk | hk
    · exact hplaced b' k (List.mem_append_left _ hk)
    · rcases mem_enqueue hk with hk | ⟨rfl, rfl⟩
      · exact hplaced b' k (List.mem_append_right _ hk)
      · exact hdials b' rfl
  | refused c b fd hp | unforked c fd hp | closeClient c fd hp | forked c fd hp =>
    exact ⟨by simp [Pos.Idle], fun _ => hbusy (by simp [hp, Pos.Idle]), by simp [Pos.dials],
      hplaced⟩
  | drop c hp | closeBackend fd hp =>
    exact ⟨fun _ => hbusy (by simp [hp, Pos.Idle]), fun hn => absurd trivial hn,
      by simp [Pos.dials], hplaced⟩

theorem BackendStep.sessions_subset {b b' : Backend} {s' : State} (hs : BackendStep s b s') :
    s'.sessions b' ⊆ s.sessions b' := by
  have hset {p : BackendPos} {cl : Session → Conn} (hp : p.session = none ∨
      p.session = (s.backends b).session) :
      ({ s.setBackend b p with conns := cl } : State).sessions b' ⊆ s.sessions b' := by
    by_cases hb : b' = b
    · subst hb
      simp only [State.sessions, State.setBackend, Function.update_self]
      rcases hp with hp | hp
      · rw [hp]
        exact List.subset_append_right _ _
      · rw [hp]
        exact List.Subset.refl _
    · simp only [State.sessions, State.setBackend, Function.update_of_ne hb]
      exact List.Subset.refl _
  cases hs with
  | accept k rest hp hq =>
    by_cases hb : b' = b
    · subst hb
      simp only [State.sessions, State.setBackend, Function.update_self, hp, hq,
        BackendPos.session, Option.toList_some, Option.toList_none, List.nil_append]
      exact List.Subset.refl _
    · simp only [State.sessions, State.setBackend, Function.update_of_ne hb]
      exact List.Subset.refl _
  | read k n hp => exact hset (Or.inr (by rw [hp]; rfl))
  | skip k hp => exact hset (Or.inr (by rw [hp]; rfl))
  | write k buf m hp => exact hset (Or.inr (by rw [hp]; rfl))
  | killed k buf hp => exact hset (Or.inl rfl)
  | close k hp => exact hset (Or.inl rfl)

theorem turn_backend (h : Turn s) {b : Backend} {s' : State} (hs : BackendStep s b s') :
    Turn s' := by
  have hplaced : ∀ b', ∀ k ∈ s'.sessions b', b' = turn k :=
    fun b' k hk => h.placed b' k (hs.sessions_subset hk)
  cases hs <;> exact ⟨h.idle, h.busy, h.dials, hplaced⟩

/-! ## The invariant of every run -/

structure Invariant (base : List Fd) (s : State) : Prop where
  tables : Tables base s
  relay : Relay s
  service : Service s
  turn : Turn s

theorem invariant_initial (base : List Fd) : Invariant base (initial base) :=
  ⟨tables_initial base, relay_initial base, service_initial base, turn_initial base⟩

theorem invariant_next (h : Invariant base s) {e : Event} (he : Enabled s e) :
    Invariant base (next s e) := by
  refine ⟨tables_next h.tables he, relay_next h.tables h.relay he,
    service_next h.tables h.relay h.service he, ?_⟩
  cases e with
  | parent e => exact turn_parent h.turn (parent_step he)
  | child k e =>
    obtain ⟨c, hc, he⟩ := he
    obtain ⟨cl, c', heq, -⟩ := child_step (h.tables.child k c hc) he
    simp only [next, Option.mem_def.mp hc, heq]
    exact ⟨h.turn.idle, h.turn.busy, h.turn.dials, h.turn.placed⟩
  | backend b e => exact turn_backend h.turn (backend_step he)
  | send k bytes => exact ⟨h.turn.idle, h.turn.busy, h.turn.dials, h.turn.placed⟩
  | hangup k => exact ⟨h.turn.idle, h.turn.busy, h.turn.dials, h.turn.placed⟩

theorem invariant_run {es : List Event} (h : (machine base).Valid es) :
    Invariant base ((machine base).run es) :=
  Machine.invariant (M := machine base) (invariant_initial base)
    (fun _ _ hs he => invariant_next hs he) h

/-! ## A client gets its own data back -/

/-- Each hop of a session passes on a beginning of what came to it, so the client receives a
beginning of what it has sent. -/
structure Relayed (cl : Conn) : Prop where
  forwarded : cl.toBackend.written <+: cl.fromClient.received
  answered : cl.fromBackend.written <+: cl.toBackend.received
  returned : cl.toClient <+: cl.fromBackend.received
  own : cl.toClient <+: cl.fromClient.written
  bounded : cl.toClient.length ≤ bufSize - 1

theorem Carried.prefixes {cl : Conn} {p : Option ChildPos} (h : Carried cl p) :
    cl.toBackend.written <+: cl.fromClient.received ∧ cl.toClient <+: cl.fromBackend.received := by
  unfold Carried at h
  split at h
  · simp [h.2.1, h.2.2.2]
  · simp [h.2.1, h.2.2.2]
  · simp [h.2.1, h.2.2.2]
  · exact ⟨h.1, by simp [h.2.2]⟩
  · exact ⟨h.1, by simp [h.2.2]⟩
  all_goals exact h

theorem relayed {es : List Event} (h : (machine base).Valid es) (k : Session) :
    Relayed (((machine base).run es).conns k) := by
  have hi := invariant_run h
  obtain ⟨hforwarded, hreturned⟩ := (hi.relay k).prefixes
  have hanswered := hi.service.answered k
  have hreply := hreturned.trans
    ((Stream.received_prefix _).trans hanswered)
  refine ⟨hforwarded, hanswered, hreturned, ?_, ?_⟩
  · exact hreply.trans ((Stream.received_prefix _).trans
      (hforwarded.trans (Stream.received_prefix _)))
  · exact hreply.length_le.trans (hi.service.bounded k)

/-- One client is served: its two bytes come back. -/
theorem relayed_echo :
    let es : List Event :=
      ([.report, .accept (some 5), .socket (some 6), .connect true, .fork true] :
        List ParentEvent).map .parent ++
      [.send 0 [104, 105], .child 0 (.read 2), .child 0 (.write 2), .backend 0 .accept,
        .backend 0 (.read 2), .backend 0 (.write 2), .child 0 (.read 2), .child 0 (.write 2)]
    Relayed (((machine [0, 1, 2, 3, 4]).run es).conns 0) ∧
      (((machine [0, 1, 2, 3, 4]).run es).conns 0).toClient = [104, 105] :=
  ⟨relayed (by decide +kernel) 0, by decide +kernel⟩

/-! ## What is left of a session -/

/-- A connection is open in the parent while it sets up the session, and in the child of the
session until that has closed it; no other process has it. -/
structure Released (base : List Fd) (s : State) : Prop where
  waiting : s.pos = .waiting → s.table = own base
  session : ∀ k, s.Held (.client k) ∨ s.Held (.backend k) →
    k = s.round ∧ s.pos.ends ≠ (none, none) ∨
      ∃ c ∈ s.children k, c.pos ≠ .exit ∧ c.pos ≠ .exited
  child : ∀ k, ∀ c ∈ s.children k, ∀ f, c.table.Holds f →
    f = .other ∨ f = .client k ∨ f = .backend k
  alive : ∀ b, s.backends b ≠ .killed

theorem holds_of_own {f : File} (h : (own base).Holds f) : f = .other := by
  obtain ⟨e, he, rfl⟩ := h
  obtain ⟨a, -, rfl⟩ := List.mem_map.mp he
  rfl

/-- What a child has open is its own. -/
theorem Child.Fits.holds {ch : Child} (h : ch.Fits (own base) k) {f : File}
    (hf : ch.table.Holds f) :
    f = .other ∨ (f = .client k ∨ f = .backend k) ∧ ch.pos ≠ .exit ∧ ch.pos ≠ .exited := by
  have htable := h.table
  cases hpos : ch.pos <;> simp only [hpos] at htable <;> rw [htable] at hf
  case exit => exact Or.inl (holds_of_own hf)
  case exited =>
    obtain ⟨e, he, -⟩ := hf
    cases he
  all_goals
    refine (sessionTable_holds hf).imp_right fun hf => ⟨?_, by simp, by simp⟩
    exact hf.imp And.right And.right

theorem released {es : List Event} (h : (machine base).Valid es) :
    Released base ((machine base).run es) := by
  have hi := invariant_run h
  generalize (machine base).run es = s at hi
  have hparent {f : File} (hf : s.table.Holds f) (hne : f ≠ .other) :
      (f = .client s.round ∨ f = .backend s.round) ∧ s.pos.ends ≠ (none, none) := by
    rw [hi.tables.parent] at hf
    rcases sessionTable_holds hf with rfl | ⟨hc, rfl⟩ | ⟨hfd, rfl⟩
    · exact absurd rfl hne
    · exact ⟨Or.inl rfl, fun heq => hc (congrArg Prod.fst heq)⟩
    · exact ⟨Or.inr rfl, fun heq => hfd (congrArg Prod.snd heq)⟩
  have hheld {f : File} (hf : s.Held f) (hne : f ≠ .other) {k : Session}
      (hk : ∀ j, f = .client j ∨ f = .backend j → j = k) :
      k = s.round ∧ s.pos.ends ≠ (none, none) ∨
        ∃ c ∈ s.children k, c.pos ≠ .exit ∧ c.pos ≠ .exited := by
    rcases hf with hf | ⟨j, -, c, hc, hf⟩
    · obtain ⟨hj, he⟩ := hparent hf hne
      exact Or.inl ⟨(hk _ hj).symm, he⟩
    · obtain ⟨hj, he⟩ := ((hi.tables.child j c hc).holds hf).resolve_left hne
      obtain rfl := hk j hj
      exact Or.inr ⟨c, hc, he⟩
  refine ⟨?_, ?_, ?_, hi.service.alive⟩
  · intro hp
    rw [hi.tables.parent, hp]
    exact sessionTable_none
  · rintro k (hf | hf)
    · exact hheld hf (by simp) (by simp)
    · exact hheld hf (by simp) (by simp)
  · intro k c hc f hf
    exact ((hi.tables.child k c hc).holds hf).imp_right And.left

/-- When the child of the first session has ended, the parent being in its loop, no process has
the two connections open. -/
theorem released_first :
    let es : List Event :=
      ([.report, .accept (some 5), .socket (some 6), .connect true, .fork true, .close, .close] :
        List ParentEvent).map .parent ++
      [.send 0 [104, 105], .child 0 (.read 2), .child 0 (.write 2), .backend 0 .accept,
        .backend 0 (.read 2), .backend 0 (.write 2), .child 0 (.read 2), .child 0 (.write 2),
        .child 0 .close, .child 0 .close, .child 0 .exit]
    Released [0, 1, 2, 3, 4] ((machine [0, 1, 2, 3, 4]).run es) ∧
      ((machine [0, 1, 2, 3, 4]).run es).table = own [0, 1, 2, 3, 4] := by
  intro es
  have h : Released [0, 1, 2, 3, 4] ((machine [0, 1, 2, 3, 4]).run es) :=
    released (by decide +kernel)
  exact ⟨h, h.waiting (by decide +kernel)⟩

/-! ## A silent client -/

/-- The child waits for a reply to nothing. -/
def State.Silent (s : State) (k : Session) : Prop :=
  ∃ c ∈ s.children k, c.pos = .readBackend ∧ (s.conns k).toBackend.written = []

instance (s : State) (k : Session) : Decidable (s.Silent k) :=
  inferInstanceAs (Decidable (∃ c ∈ s.children k, _))

theorem State.Silent.attended (h : s.Silent k) : s.Attended k := by
  obtain ⟨c, hc, hp, -⟩ := h
  exact Or.inl ⟨c, hc, by rw [hp]; trivial⟩

theorem State.Silent.received (h : s.Silent k) : (s.conns k).toBackend.received = [] := by
  obtain ⟨c, hc, -, hw⟩ := h
  exact Stream.received_of_written hw

theorem Service.written_nil (h : Service s) (hr : (s.conns k).toBackend.received = []) :
    (s.conns k).fromBackend.written = [] := by
  have := h.answered k
  rw [hr] at this
  exact List.prefix_nil.mp this

/-- Neither side of the connection moves, and nothing closes it. -/
theorem silent_next (hi : Invariant base s) (h : s.Silent k) {e : Event} (he : Enabled s e) :
    (next s e).Silent k ∧ ∀ b, s.backends b = .reading k → (next s e).backends b = .reading k := by
  have hreceived := h.received
  have hwritten := hi.service.written_nil hreceived
  have hwaits := hi.service.attended k h.attended hreceived
  have hheld := hi.tables.held h.attended
  have hclosed := (hi.service.placed _ k (mem_sessions hwaits)).2.1
  obtain ⟨c, hc, hp, hw⟩ := h
  cases e with
  | parent e =>
    have hstart := hi.tables.started k c hc
    have hs := parent_step he
    simp only [next]
    generalize parentNext s e = s' at hs
    cases hs with
    | connected c' b fd hpos =>
      refine ⟨⟨c, hc, hp, ?_⟩, fun b' hb => hb⟩
      have hk : k ≠ s.round := by
        rintro rfl
        rcases hstart with hlt | ⟨-, hf⟩
        · exact Nat.lt_irrefl _ hlt
        · rw [hpos] at hf
          exact hf
      simp only [State.setConn, Function.update_of_ne hk]
      exact hw
    | forked c' fd hpos =>
      have hk : k ≠ s.round := by
        rintro rfl
        rcases hstart with hlt | ⟨-, hf⟩
        · exact Nat.lt_irrefl _ hlt
        · rw [hpos] at hf
          exact hf
      refine ⟨⟨c, ?_, hp, hw⟩, fun b' hb => hb⟩
      simp only [State.setChild, Function.update_of_ne hk]
      exact hc
    | _ => exact ⟨⟨c, hc, hp, hw⟩, fun b' hb => hb⟩
  | child j e =>
    obtain ⟨d, hd, he⟩ := he
    obtain ⟨cl, d', heq, hs⟩ := child_step (hi.tables.child j d hd) he
    simp only [next, Option.mem_def.mp hd, heq]
    by_cases hj : j = k
    · subst hj
      obtain rfl := Option.mem_unique hc hd
      cases hs with
      | readBackend n _ hn => exact absurd (Stream.pending_of_written hwritten) hn
      | skipBackend _ hcl => exact absurd (hclosed.symm.trans hcl) (by simp)
      | close hcl =>
        rw [hp] at hcl
        exact hcl.elim
      | readClient n hp' | skipClient hp' | writeBackend _ m hp' | writeClient _ m hp'
      | mute _ hp' | killedBackend _ hp' | killedClient _ hp' | exit hp' =>
        rw [hp] at hp'
        cases hp'
    · refine ⟨⟨c, ?_, hp, ?_⟩, fun b hb => hb⟩
      · simp only [State.setChild, State.setConn, Function.update_of_ne (Ne.symm hj)]
        exact hc
      · simp only [State.setChild, State.setConn, Function.update_of_ne (Ne.symm hj)]
        exact hw
  | backend b e =>
    have hs := backend_step he
    simp only [next]
    generalize backendNext s b e = s' at hs
    -- the only step on the session is the one that takes it from the queue
    have hkeep {b' : Backend} {p : BackendPos} (hb : s.backends b ≠ .reading k)
        (hb' : s.backends b' = .reading k) :
        Function.update s.backends b p b' = .reading k := by
      rw [Function.update_of_ne, hb']
      rintro rfl
      exact hb hb'
    cases hs with
    | accept j rest hpos hq =>
      exact ⟨⟨c, hc, hp, hw⟩, fun b' => hkeep (by simp [hpos])⟩
    | read j n hpos hn hcap hlen =>
      have hj : j ≠ k := by
        rintro rfl
        rw [Stream.pending_of_written hw, List.length_nil] at hlen
        omega
      refine ⟨⟨c, hc, hp, ?_⟩, fun b' => hkeep (by simp [hpos, hj])⟩
      simp only [State.setBackend, State.setConn, Function.update_of_ne hj.symm]
      exact hw
    | skip j hpos hnot =>
      have hj : j ≠ k := by
        rintro rfl
        exact hnot hheld
      exact ⟨⟨c, hc, hp, hw⟩, fun b' => hkeep (by simp [hpos, hj])⟩
    | write j buf m hpos =>
      have hj : j ≠ k := by
        rintro rfl
        obtain ⟨hne, hr, -⟩ := hi.service.writing b j buf hpos
        exact hne (hr.symm.trans hreceived)
      refine ⟨⟨c, hc, hp, ?_⟩, fun b' => hkeep (by simp [hpos])⟩
      simp only [State.setBackend, State.setConn, Function.update_of_ne hj.symm]
      exact hw
    | killed j buf hpos => exact ⟨⟨c, hc, hp, hw⟩, fun b' => hkeep (by simp [hpos])⟩
    | close j hpos =>
      refine ⟨⟨c, hc, hp, ?_⟩, fun b' => hkeep (by simp [hpos])⟩
      by_cases hj : k = j
      · subst hj
        simp only [State.setBackend, State.setConn, Function.update_self]
        exact hw
      · simp only [State.setBackend, State.setConn, Function.update_of_ne hj]
        exact hw
  | send j bytes =>
    refine ⟨⟨c, hc, hp, ?_⟩, fun b hb => hb⟩
    by_cases hj : k = j
    · subst hj
      simp only [next, State.setConn, Function.update_self]
      exact hw
    · simp only [next, State.setConn, Function.update_of_ne hj]
      exact hw
  | hangup j =>
    refine ⟨⟨c, hc, hp, ?_⟩, fun b hb => hb⟩
    by_cases hj : k = j
    · subst hj
      simp only [next, State.setConn, Function.update_self]
      exact hw
    · simp only [next, State.setConn, Function.update_of_ne hj]
      exact hw

/-- The backend that has the silent session takes no other, so none of those is answered. -/
theorem unanswered_next (hi : Invariant base s) (hb : s.backends (turn k) = .reading k)
    {j : Session} (hturn : turn j = turn k)
    (hw : (s.conns j).fromBackend.written = []) {e : Event} (he : Enabled s e) :
    ((next s e).conns j).fromBackend.written = [] := by
  have hkeep {i : Session} {cl : Conn}
      (h : cl.fromBackend.written = (s.conns i).fromBackend.written) :
      (Function.update s.conns i cl j).fromBackend.written = [] := by
    by_cases hi : j = i
    · subst hi
      rw [Function.update_self, h, hw]
    · rw [Function.update_of_ne hi, hw]
  cases e with
  | parent e =>
    have hs := parent_step he
    simp only [next]
    generalize parentNext s e = s' at hs
    cases hs with
    | connected => exact hkeep rfl
    | _ => exact hw
  | child i e =>
    obtain ⟨d, hd, he⟩ := he
    obtain ⟨cl, d', heq, hs⟩ := child_step (hi.tables.child i d hd) he
    simp only [next, Option.mem_def.mp hd, heq]
    exact hkeep hs.sameService.written
  | backend b e =>
    have hs := backend_step he
    simp only [next]
    generalize backendNext s b e = s' at hs
    cases hs with
    | accept | skip | killed => exact hw
    | read i n | close i => exact hkeep rfl
    | write i buf m hpos =>
      have hne : j ≠ i := by
        rintro rfl
        have hplaced := hi.turn.placed b j (by simp [State.sessions, hpos, BackendPos.session])
        rw [hplaced, hturn, hb] at hpos
        cases hpos
      simp only [State.setBackend, State.setConn, Function.update_of_ne hne]
      exact hw
  | send i bytes | hangup i => exact hkeep rfl

/-- Once a child waits for the reply to nothing it does so for good. The backend that has taken
its session never takes another, so of the clients whose turn it was none is answered that has
not been by then. -/
theorem silent_session_blocks (base : List Fd) {es fs : List Event} {k : Session}
    (h : (machine base).Valid (es ++ fs)) (hs : ((machine base).run es).Silent k) :
    let s := (machine base).run es
    let s' := (machine base).run (es ++ fs)
    s'.Silent k ∧ (s'.conns k).toClient = [] ∧
      (s.backends (turn k) = .reading k → s'.backends (turn k) = .reading k ∧
        ∀ j, turn j = turn k → (s.conns j).fromBackend.written = [] →
          (s'.conns j).toClient = []) := by
  intro s s'
  have hempty {j : Session} (hw : (s'.conns j).fromBackend.written = []) :
      (s'.conns j).toClient = [] := by
    have hr := (relayed h j).returned
    rw [Stream.received_of_written hw] at hr
    exact List.prefix_nil.mp hr
  have hsilent : s'.Silent k := Machine.persists (P := fun t => t.Silent k) h hs
    fun gs e hv he hk => (silent_next (invariant_run hv) hk he).1
  refine ⟨hsilent, ?_, fun hb => ?_⟩
  · exact hempty ((invariant_run h).service.written_nil hsilent.received)
  · have hstuck : s'.Silent k ∧ s'.backends (turn k) = .reading k :=
      Machine.persists (P := fun t => t.Silent k ∧ t.backends (turn k) = .reading k) h ⟨hs, hb⟩
        fun gs e hv he hk => (silent_next (invariant_run hv) hk.1 he).imp_right (· _ hk.2)
    refine ⟨hstuck.2, fun j hturn hw => hempty ?_⟩
    have hlate := Machine.persists
      (P := fun t => (t.Silent k ∧ t.backends (turn k) = .reading k) ∧
        (t.conns j).fromBackend.written = []) h ⟨⟨hs, hb⟩, hw⟩
      fun gs e hv he hk => by
        have hi := invariant_run hv
        exact ⟨(silent_next hi hk.1.1 he).imp_right (· _ hk.1.2),
          unanswered_next hi hk.1.2 hturn hk.2 he⟩
    exact hlate.2

/-- The parent serves one client, with these descriptors for it and for its backend. -/
private abbrev serve (client backend : Fd) : List Event :=
  [.report, .accept (some client), .socket (some backend), .connect true, .fork true, .close,
    .close].map .parent

private abbrev silentRun : List Event :=
  serve 5 6 ++ [.hangup 0, .child 0 .readEnded, .child 0 (.write 0), .backend 0 .accept]

private abbrev laterRun : List Event :=
  serve 5 6 ++ (serve 5 6 ++ (serve 5 6 ++ [.send 3 [104, 105], .child 3 (.read 2),
    .child 3 (.write 2)]))

/-- The first client hangs up without a word, and the fourth waits for ever. -/
theorem silent_session_blocks_fourth :
    ((machine [0, 1, 2, 3, 4]).run (silentRun ++ laterRun)).backends 0 = .reading 0 ∧
      (((machine [0, 1, 2, 3, 4]).run (silentRun ++ laterRun)).conns 3).toClient = [] := by
  have hb : ((machine [0, 1, 2, 3, 4]).run silentRun).backends (turn 0) = .reading 0 := by
    decide +kernel
  have hv : (machine [0, 1, 2, 3, 4]).Valid (silentRun ++ laterRun) := by decide +kernel
  have hs : ((machine [0, 1, 2, 3, 4]).run silentRun).Silent 0 := by decide +kernel
  obtain ⟨hstuck, hlate⟩ := (silent_session_blocks [0, 1, 2, 3, 4] hv hs).2.2 hb
  exact ⟨hstuck, hlate 3 rfl (by decide +kernel)⟩

end ForkingBalancer
