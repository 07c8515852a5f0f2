import LinuxLabs.Channel
import LinuxLabs.SelectLogger
import LinuxLabs.UnixLogger

/-! # The logger on `select` with its clients (lab 05)
What a client sends is one stream: a `recv` may cut it anywhere, and each piece becomes an entry of
the log, in the format of lab 03 but without a newline behind it. -/
namespace TcpLogger

open Execution CString LineInput LineClient Journal
open Channel (Stream)
open SelectLogger (Kernel Slot insertClient freeSlot watched)
open UdpLoggers (Tm)
open UnixLogger (header headers)

/-- `broken` says that the client went without the end of its loop. -/
structure Session where
  client : Client
  stream : Stream Byte
  connected : Bool
  accepted : Bool
  broken : Bool
  ended : Bool

/-- `peer` tells whose connection a descriptor is; `chunks` is history. -/
structure State where
  server : SelectLogger.State
  peer : ℕ → ℕ
  sessions : ℕ → Session
  file : List Byte
  chunks : List (Tm × ℕ × List Byte)

def initial (input : ℕ → List Byte) : State :=
  ⟨SelectLogger.initial, fun _ => 0,
    fun c => ⟨start (input c), Stream.empty, false, false, false, false⟩, [], []⟩

/-- `lose` is the loss of a client and of all but `n` bytes of what is on the way from it. In
`server` the client is the one that an `accept` finds. -/
inductive Event where
  | connect (c : ℕ)
  | round (c : ℕ)
  | lose (c n : ℕ)
  | server (e : SelectLogger.Event) (c : ℕ) (now : Tm)
  deriving DecidableEq

/-- What the scan is about to read. -/
def scanned (s : State) : Option ℕ :=
  match s.server.phase with
  | .scanning i => some (s.peer (s.server.clients i))
  | _ => none

/-- A `recv` returns something of what has arrived, or 0 behind the end. -/
def Receives (session : Session) (bytes : List Byte) : Prop :=
  if bytes = [] then
    session.stream.pending = [] ∧ (session.client.closed = true ∨ session.broken = true)
  else bytes <+: session.stream.pending

def Possible (s : State) (c : ℕ) : SelectLogger.Event → Prop
  | .accept _ => (s.sessions c).connected = true ∧ (s.sessions c).accepted = false
  | .recv bytes => ∃ d ∈ scanned s, Receives (s.sessions d) bytes
  | _ => True

def Enabled (k : Kernel) (s : State) : Event → Prop
  | .connect c => (s.sessions c).connected = false
  | .round c => (s.sessions c).connected = true ∧ (s.sessions c).broken = false ∧
      (s.sessions c).client.closed = false
  | .lose c _ => (s.sessions c).connected = true ∧ (s.sessions c).broken = false
  | .server e c _ => SelectLogger.Enabled k s.server e ∧ Possible s c e

def State.setSession (s : State) (c : ℕ) (session : Session) : State :=
  { s with sessions := Function.update s.sessions c session }

def Session.round (session : Session) : Session :=
  let (client, message) := session.client.round
  { session with client := client, stream := session.stream.write (message.getD []) }

def Session.lose (session : Session) (n : ℕ) : Session :=
  { session with
    stream := ⟨session.stream.received, session.stream.pending.take n⟩
    broken := true }

/-- The body of the scan, with the result of its `recv`. -/
def State.receive (s : State) (c : ℕ) (bytes : List Byte) (now : Tm) : State :=
  if bytes = [] then s.setSession c { s.sessions c with ended := true }
  else
    { s.setSession c
        { s.sessions c with stream := (s.sessions c).stream.read bytes.length } with
      file := s.file ++ (header now ++ cstr bytes)
      chunks := s.chunks ++ [(now, c, bytes)] }

def State.serve (s : State) (c : ℕ) (now : Tm) : SelectLogger.Event → State
  | .accept fd =>
    { s.setSession c { s.sessions c with accepted := true } with
      peer := Function.update s.peer fd c }
  | .recv bytes =>
    match scanned s with
    | some d => s.receive d bytes now
    | none => s
  | _ => s

def next (k : Kernel) (s : State) : Event → State
  | .connect c => s.setSession c { s.sessions c with connected := true }
  | .round c => s.setSession c (s.sessions c).round
  | .lose c n => s.setSession c ((s.sessions c).lose n)
  | .server e c now => { s.serve c now e with server := SelectLogger.next k s.server e }

def machine (k : Kernel) (input : ℕ → List Byte) : Machine State Event :=
  ⟨initial input, Enabled k, next k⟩

instance (session : Session) (bytes : List Byte) : Decidable (Receives session bytes) := by
  unfold Receives
  infer_instance

instance (s : State) (c : ℕ) (e : SelectLogger.Event) : Decidable (Possible s c e) := by
  generalize hscanned : scanned s = o
  casesm SelectLogger.Event <;> simp only [Possible, hscanned] <;> infer_instance

instance (k : Kernel) (s : SelectLogger.State) (e : SelectLogger.Event) :
    Decidable (SelectLogger.Enabled k s e) :=
  inferInstanceAs (Decidable ((SelectLogger.machine k).Enabled s e))

instance (k : Kernel) (input : ℕ → List Byte) (s : State) (e : Event) :
    Decidable ((machine k input).Enabled s e) := by
  simp only [machine]
  casesm Event <;> simp only [Enabled] <;> infer_instance

/-- The entries of the log. -/
def entries (chunks : List (Tm × ℕ × List Byte)) : List (Tm × List Byte) :=
  chunks.map fun r => (r.1, r.2.2)

/-- What the log has of client `c`. -/
def logged (c : ℕ) (chunks : List (Tm × ℕ × List Byte)) : List Byte :=
  (chunks.filter fun r => r.2.1 = c).flatMap fun r => r.2.2

/-! ## The table -/

/-- What the table keeps also where it is full. -/
structure Table (s : SelectLogger.State) : Prop where
  distinct : ∀ i j, s.clients i ≠ 0 → s.clients i = s.clients j → i = j
  opened : ∀ i, s.clients i ≠ 0 → s.clients i ∈ s.connections
  zero : 0 ∉ s.connections
  set : 0 ∉ s.readfds

variable {k : Kernel} {t : SelectLogger.State} {fd : ℕ} {i : Slot}

theorem Table.accept (h : Table t) (hreserved : fd ∉ k.reserved) (hfresh : fd ∉ t.connections) :
    Table { t with
      clients := insertClient t.clients fd
      connections := insert fd t.connections
      phase := .scanning 0 } := by
  have hzero : 0 ∉ insert fd t.connections := by
    intro hm
    rcases Finset.mem_insert.mp hm with rfl | hm
    · exact hreserved k.zero
    · exact h.zero hm
  cases hfree : freeSlot t.clients with
  | none =>
    refine ⟨?_, ?_, hzero, h.set⟩
    · simpa only [insertClient, hfree] using h.distinct
    · simp only [insertClient, hfree]
      exact fun i hi => Finset.mem_insert_of_mem (h.opened i hi)
  | some j =>
    have hother {i : Slot} (hij : i ≠ j) : insertClient t.clients fd i = t.clients i := by
      simp only [insertClient, hfree, Function.update_of_ne hij]
    have hself : insertClient t.clients fd j = fd := by
      simp only [insertClient, hfree, Function.update_self]
    refine ⟨fun i l hi heq => ?_, fun i hi => ?_, hzero, h.set⟩
    · dsimp only at hi heq
      by_cases hij : i = j
      · by_cases hlj : l = j
        · rw [hij, hlj]
        · rw [hij, hself, hother hlj] at heq
          rw [heq] at hfresh
          refine absurd (h.opened l ?_) hfresh
          rw [hij, hself, heq] at hi
          exact hi
      · rw [hother hij] at hi heq
        by_cases hlj : l = j
        · rw [hlj, hself] at heq
          rw [← heq] at hfresh
          exact absurd (h.opened i hi) hfresh
        · rw [hother hlj] at heq
          exact h.distinct i l hi heq
    · dsimp only at hi ⊢
      by_cases hij : i = j
      · rw [hij, hself]
        exact Finset.mem_insert_self _ _
      · rw [hother hij] at hi ⊢
        exact Finset.mem_insert_of_mem (h.opened i hi)

theorem Table.close (h : Table t) (i : Slot) (phase : SelectLogger.Phase) :
    Table { t with
      clients := Function.update t.clients i 0
      connections := t.connections.erase (t.clients i)
      phase := phase } := by
  refine ⟨fun j l hj heq => ?_, fun j hj => ?_, fun hm => h.zero (Finset.mem_of_mem_erase hm),
    h.set⟩
  · dsimp only at hj heq
    by_cases hji : j = i
    · rw [hji, Function.update_self] at hj
      exact absurd rfl hj
    · rw [Function.update_of_ne hji] at hj heq
      by_cases hli : l = i
      · rw [hli, Function.update_self] at heq
        exact absurd heq hj
      · rw [Function.update_of_ne hli] at heq
        exact h.distinct j l hj heq
  · dsimp only at hj ⊢
    by_cases hji : j = i
    · rw [hji, Function.update_self] at hj
      exact absurd rfl hj
    · rw [Function.update_of_ne hji] at hj ⊢
      refine Finset.mem_erase.mpr ⟨fun heq => hji (h.distinct j i hj heq), h.opened j hj⟩

theorem Table.next {e : SelectLogger.Event} (h : Table t) (he : SelectLogger.Enabled k t e) :
    Table (SelectLogger.next k t e) := by
  cases e with
  | select ready =>
    refine ⟨h.distinct, h.opened, h.zero, fun hm => ?_⟩
    exact SelectLogger.zero_not_watched (he.2.2 hm)
  | selectFailed => exact h
  | interrupted => exact ⟨h.distinct, h.opened, h.zero, SelectLogger.zero_not_watched⟩
  | accept fd => exact h.accept he.2.1 he.2.2
  | acceptFailed => exact ⟨h.distinct, h.opened, h.zero, h.set⟩
  | recv bytes =>
    obtain ⟨⟨i, hphase, -⟩, -⟩ := he
    simp only [SelectLogger.next, hphase]
    split_ifs with hb
    · exact h.close i _
    · exact ⟨h.distinct, h.opened, h.zero, h.set⟩
  | skip =>
    obtain ⟨i, hphase, -⟩ := he
    simp only [SelectLogger.next, hphase]
    exact ⟨h.distinct, h.opened, h.zero, h.set⟩

/-! ## One session -/

structure SessionInvariant (input : List Byte) (session : Session) : Prop where
  sound : Sound input session.client
  sent : session.stream.written <+: session.client.handed.flatten
  all : session.broken = false → session.stream.written = session.client.handed.flatten
  ended : session.ended = true →
    session.stream.pending = [] ∧ (session.client.closed = true ∨ session.broken = true)
  fresh : session.accepted = false → session.stream.received = [] ∧ session.ended = false

variable {input : List Byte} {session : Session} {n : ℕ} {bytes : List Byte}

theorem SessionInvariant.initial (input : List Byte) :
    SessionInvariant input ⟨start input, Stream.empty, false, false, false, false⟩ :=
  ⟨Sound.start input, List.nil_prefix, fun _ => rfl, nofun, fun _ => ⟨rfl, rfl⟩⟩

theorem SessionInvariant.round (h : SessionInvariant input session)
    (hopen : session.client.closed = false) (hb : session.broken = false) :
    SessionInvariant input session.round := by
  obtain ⟨hsound, hhanded⟩ := h.sound.round hopen
  have hwritten : session.round.stream.written = session.round.client.handed.flatten := by
    simp only [Session.round, Channel.Stream.written_write, h.all hb, hhanded,
      List.flatten_append]
    cases session.client.round.2 <;> simp
  refine ⟨hsound, ?_, fun _ => hwritten, fun he => ?_, h.fresh⟩
  · rw [hwritten]
  · rcases (h.ended he).2 with hc | hc
    · exact absurd (hopen.symm.trans hc) Bool.false_ne_true
    · exact absurd (hb.symm.trans hc) Bool.false_ne_true

theorem SessionInvariant.lose (h : SessionInvariant input session) (n : ℕ) :
    SessionInvariant input (session.lose n) := by
  refine ⟨h.sound, List.IsPrefix.trans ?_ h.sent, nofun, fun he => ?_, h.fresh⟩
  · exact (List.prefix_append_right_inj _).mpr (List.take_prefix n _)
  · have hpending : session.stream.pending = [] := (h.ended he).1
    exact ⟨by simp [Session.lose, hpending], Or.inr rfl⟩

theorem SessionInvariant.read (h : SessionInvariant input session) (n : ℕ)
    (haccepted : session.accepted = true) :
    SessionInvariant input { session with stream := session.stream.read n } := by
  refine ⟨h.sound, ?_, ?_, fun he => ?_, fun hf => ?_⟩
  · rw [Channel.Stream.written_read]
    exact h.sent
  · rw [Channel.Stream.written_read]
    exact h.all
  · obtain ⟨hpending, hgone⟩ := h.ended he
    exact ⟨by simp [hpending], hgone⟩
  · exact absurd (haccepted.symm.trans hf) (by decide)

theorem SessionInvariant.accept (h : SessionInvariant input session) :
    SessionInvariant input { session with accepted := true } :=
  ⟨h.sound, h.sent, h.all, h.ended, nofun⟩

theorem SessionInvariant.close (h : SessionInvariant input session)
    (haccepted : session.accepted = true) (hr : Receives session []) :
    SessionInvariant input { session with ended := true } :=
  ⟨h.sound, h.sent, h.all, fun _ => hr, fun hf => absurd (haccepted.symm.trans hf) (by decide)⟩

/-- What is on its way holds no NUL. -/
theorem SessionInvariant.noNul (h : SessionInvariant input session)
    (hp : bytes <+: session.stream.pending) : (0 : Byte) ∉ bytes := by
  intro hm
  have hwritten : (0 : Byte) ∈ session.stream.written :=
    List.mem_append_right _ (hp.subset hm)
  obtain ⟨m, hmem, hzero⟩ := List.mem_flatten.mp (h.sent.subset hwritten)
  exact (h.sound.message hmem).noNul hzero

/-! ## The log of all of them -/

structure Invariant (input : ℕ → List Byte) (s : State) : Prop where
  table : Table s.server
  session : ∀ c, SessionInvariant (input c) (s.sessions c)
  peers : ∀ fd ∈ s.server.connections,
    (s.sessions (s.peer fd)).accepted = true ∧ (s.sessions (s.peer fd)).ended = false
  distinct : ∀ fd ∈ s.server.connections, ∀ fd' ∈ s.server.connections,
    s.peer fd = s.peer fd' → fd = fd'
  served : ∀ c, (s.sessions c).accepted = true → (s.sessions c).ended = false →
    ∃ fd ∈ s.server.connections, s.peer fd = c
  stranded : ∀ fd ∈ s.server.connections, (∀ i, s.server.clients i ≠ fd) →
    (s.sessions (s.peer fd)).stream.received = []
  logged : ∀ c, logged c s.chunks = (s.sessions c).stream.received
  file : s.file = text header (entries s.chunks)

variable {input : ℕ → List Byte} {s : State} {c : ℕ} {now : Tm}

theorem logged_concat (c d : ℕ) (chunks : List (Tm × ℕ × List Byte)) (now : Tm)
    (bytes : List Byte) : logged c (chunks ++ [(now, d, bytes)]) =
      logged c chunks ++ if d = c then bytes else [] := by
  simp only [logged, List.filter_append, List.flatMap_append]
  congr 1
  split_ifs with hd <;> simp [hd]

theorem text_concat (chunks : List (Tm × ℕ × List Byte)) (now : Tm) (d : ℕ) (bytes : List Byte) :
    text header (entries (chunks ++ [(now, d, bytes)])) =
      text header (entries chunks) ++ (header now ++ bytes) := by
  simp [text, entries]

/-- A change of one session that leaves its connection alone. -/
theorem Invariant.setSession (h : Invariant input s) {session : Session}
    (hs : SessionInvariant (input c) session)
    (haccepted : session.accepted = (s.sessions c).accepted)
    (hended : session.ended = (s.sessions c).ended)
    (hreceived : session.stream.received = (s.sessions c).stream.received) :
    Invariant input (s.setSession c session) := by
  have hsession (d : ℕ) : ((s.setSession c session).sessions d).accepted = (s.sessions d).accepted ∧
      ((s.setSession c session).sessions d).ended = (s.sessions d).ended ∧
      ((s.setSession c session).sessions d).stream.received = (s.sessions d).stream.received := by
    by_cases hd : d = c
    · subst hd
      simp [State.setSession, haccepted, hended, hreceived]
    · simp [State.setSession, hd]
  refine ⟨h.table, fun d => ?_, fun fd hfd => ?_, h.distinct, fun d ha he => ?_,
    fun fd hfd hi => ?_, fun d => ?_, h.file⟩
  · by_cases hd : d = c
    · subst hd
      simpa [State.setSession] using hs
    · simpa [State.setSession, hd] using h.session d
  · obtain ⟨ha, he, -⟩ := hsession (s.peer fd)
    exact ⟨ha.trans (h.peers fd hfd).1, he.trans (h.peers fd hfd).2⟩
  · obtain ⟨ha', he', -⟩ := hsession d
    exact h.served d (ha'.symm.trans ha) (he'.symm.trans he)
  · exact (hsession (s.peer fd)).2.2.trans (h.stranded fd hfd hi)
  · exact (h.logged d).trans (hsession d).2.2.symm

/-- A step of the server that neither opens nor closes a connection. -/
theorem Invariant.setServer (h : Invariant input s) {t : SelectLogger.State} (ht : Table t)
    (hclients : t.clients = s.server.clients)
    (hconnections : t.connections = s.server.connections) :
    Invariant input { s with server := t } := by
  refine ⟨ht, h.session, ?_, ?_, ?_, ?_, h.logged, h.file⟩
  · rw [hconnections]
    exact h.peers
  · rw [hconnections]
    exact h.distinct
  · rw [hconnections]
    exact h.served
  · rw [hconnections, hclients]
    exact h.stranded

theorem insertClient_of_ne {clients : Slot → ℕ} (h : clients i ≠ 0) :
    insertClient clients fd i = clients i := by
  unfold insertClient
  cases hfree : freeSlot clients with
  | none => rfl
  | some j =>
    have hne : i ≠ j := by
      rintro rfl
      exact h (SelectLogger.freeSlot_zero hfree)
    simp only [Function.update_of_ne hne]

theorem Invariant.accept (h : Invariant input s)
    (he : SelectLogger.Enabled k s.server (.accept fd)) (hc : (s.sessions c).accepted = false) :
    Invariant input (next k s (.server (.accept fd) c now)) := by
  obtain ⟨-, hreserved, hfresh⟩ := he
  obtain ⟨hempty, hopen⟩ := (h.session c).fresh hc
  have hpeer {fd' : ℕ} (hfd' : fd' ∈ s.server.connections) : fd' ≠ fd ∧ s.peer fd' ≠ c := by
    refine ⟨fun heq => hfresh (heq ▸ hfd'), fun heq => ?_⟩
    have ha := (h.peers fd' hfd').1
    rw [heq, hc] at ha
    cases ha
  refine ⟨h.table.accept hreserved hfresh, fun d => ?_, fun fd' hfd' => ?_,
    fun fd₁ h₁ fd₂ h₂ heq => ?_, fun d ha he => ?_, fun fd' hfd' hi => ?_, fun d => ?_, h.file⟩
  · by_cases hd : d = c
    · subst hd
      simpa [next, State.serve, State.setSession] using (h.session d).accept
    · simpa [next, State.serve, State.setSession, hd] using h.session d
  · rcases Finset.mem_insert.mp hfd' with rfl | hfd'
    · simp [next, State.serve, State.setSession, hopen]
    · obtain ⟨hne, hnc⟩ := hpeer hfd'
      simpa [next, State.serve, State.setSession, hne, hnc] using h.peers fd' hfd'
  · simp only [next, State.serve, SelectLogger.next, State.setSession] at heq h₁ h₂
    rcases Finset.mem_insert.mp h₁ with rfl | h₁
    · rcases Finset.mem_insert.mp h₂ with rfl | h₂
      · rfl
      · obtain ⟨hne, hnc⟩ := hpeer h₂
        rw [Function.update_self, Function.update_of_ne hne] at heq
        exact absurd heq.symm hnc
    · obtain ⟨hne, hnc⟩ := hpeer h₁
      rcases Finset.mem_insert.mp h₂ with rfl | h₂
      · rw [Function.update_self, Function.update_of_ne hne] at heq
        exact absurd heq hnc
      · rw [Function.update_of_ne hne, Function.update_of_ne (hpeer h₂).1] at heq
        exact h.distinct fd₁ h₁ fd₂ h₂ heq
  · by_cases hd : d = c
    · subst hd
      exact ⟨fd, Finset.mem_insert_self _ _, Function.update_self _ _ _⟩
    · simp only [next, State.serve, State.setSession, Function.update_of_ne hd] at ha he
      obtain ⟨fd', hfd', rfl⟩ := h.served d ha he
      exact ⟨fd', Finset.mem_insert_of_mem hfd', Function.update_of_ne (hpeer hfd').1 _ _⟩
  · rcases Finset.mem_insert.mp hfd' with rfl | hfd'
    · simpa [next, State.serve, State.setSession] using hempty
    · obtain ⟨hne, hnc⟩ := hpeer hfd'
      have hold : ∀ j, s.server.clients j ≠ fd' := by
        intro j hj
        have hzero : s.server.clients j ≠ 0 := fun hz => h.table.zero (hz ▸ hj ▸ hfd')
        exact hi j ((insertClient_of_ne hzero).trans hj)
      simpa [next, State.serve, State.setSession, hne, hnc] using h.stranded fd' hfd' hold
  · by_cases hd : d = c
    · subst hd
      simpa [next, State.serve, State.setSession] using h.logged d
    · simpa [next, State.serve, State.setSession, hd] using h.logged d

theorem Invariant.receive (h : Invariant input s) (hphase : s.server.phase = .scanning i)
    (hi : s.server.clients i ≠ 0) (hne : bytes ≠ [])
    (hp : bytes <+: (s.sessions (s.peer (s.server.clients i))).stream.pending) :
    Invariant input (next k s (.server (.recv bytes) c now)) := by
  have hconn := h.table.opened i hi
  have hstate : next k s (.server (.recv bytes) c now) =
      { s.receive (s.peer (s.server.clients i)) bytes now with
        server := { s.server with phase := SelectLogger.advance i } } := by
    simp only [next, State.serve, scanned, hphase, SelectLogger.next, if_neg hne]
  rw [hstate]
  generalize hd : s.peer (s.server.clients i) = d at hp ⊢
  obtain ⟨haccepted, hended⟩ := h.peers _ hconn
  rw [hd] at haccepted hended
  have hother {e : ℕ} (he : e ≠ d) : (s.receive d bytes now).sessions e = s.sessions e := by
    simp only [State.receive, if_neg hne, State.setSession, Function.update_of_ne he]
  have hself : (s.receive d bytes now).sessions d =
      { s.sessions d with stream := (s.sessions d).stream.read bytes.length } := by
    simp only [State.receive, if_neg hne, State.setSession, Function.update_self]
  have hpeer : (s.receive d bytes now).peer = s.peer := by
    simp only [State.receive, if_neg hne, State.setSession]
  have hsame (e : ℕ) : ((s.receive d bytes now).sessions e).accepted = (s.sessions e).accepted ∧
      ((s.receive d bytes now).sessions e).ended = (s.sessions e).ended := by
    by_cases he : e = d
    · rw [he, hself]
      exact ⟨rfl, rfl⟩
    · rw [hother he]
      exact ⟨rfl, rfl⟩
  refine ⟨⟨h.table.distinct, h.table.opened, h.table.zero, h.table.set⟩, fun e => ?_,
    fun fd hfd => ?_, fun fd hfd fd' hfd' heq => ?_, fun e ha he => ?_, fun fd hfd hj => ?_,
    fun e => ?_, ?_⟩
  · by_cases he : e = d
    · subst he
      dsimp only
      rw [hself]
      exact (h.session e).read bytes.length haccepted
    · dsimp only
      rw [hother he]
      exact h.session e
  · dsimp only
    rw [hpeer, (hsame _).1, (hsame _).2]
    exact h.peers fd hfd
  · dsimp only at heq
    rw [hpeer] at heq
    exact h.distinct fd hfd fd' hfd' heq
  · dsimp only at ha he ⊢
    rw [(hsame e).1] at ha
    rw [(hsame e).2] at he
    rw [hpeer]
    exact h.served e ha he
  · dsimp only at hj ⊢
    have hfd' : s.peer fd ≠ d := by
      intro heq
      refine hj i (h.distinct _ hconn fd hfd ?_)
      rw [hd, heq]
    rw [hpeer, hother hfd']
    exact h.stranded fd hfd hj
  · have hchunks : (s.receive d bytes now).chunks = s.chunks ++ [(now, d, bytes)] := by
      simp only [State.receive, if_neg hne]
    dsimp only
    rw [hchunks, logged_concat, h.logged e]
    by_cases he : e = d
    · subst he
      rw [if_pos rfl, hself, Channel.Stream.received_read, ← List.prefix_iff_eq_take.mp hp]
    · rw [if_neg (Ne.symm he), hother he, List.append_nil]
  · have hfile : (s.receive d bytes now).file = s.file ++ (header now ++ cstr bytes) := by
      simp only [State.receive, if_neg hne]
    have hchunks : (s.receive d bytes now).chunks = s.chunks ++ [(now, d, bytes)] := by
      simp only [State.receive, if_neg hne]
    dsimp only
    rw [hfile, hchunks, text_concat, h.file, cstr_of_noNul ((h.session d).noNul hp)]

theorem Invariant.close (h : Invariant input s) (hphase : s.server.phase = .scanning i)
    (hi : s.server.clients i ≠ 0)
    (hr : Receives (s.sessions (s.peer (s.server.clients i))) []) :
    Invariant input (next k s (.server (.recv []) c now)) := by
  have hconn := h.table.opened i hi
  have hstate : next k s (.server (.recv []) c now) =
      { s.setSession (s.peer (s.server.clients i))
          { s.sessions (s.peer (s.server.clients i)) with ended := true } with
        server :=
          { s.server with
            clients := Function.update s.server.clients i 0
            connections := s.server.connections.erase (s.server.clients i)
            phase := SelectLogger.advance i } } := by
    simp only [next, State.serve, scanned, hphase, SelectLogger.next, State.receive, if_true]
  rw [hstate]
  have hpeer {fd : ℕ} (hfd : fd ∈ s.server.connections.erase (s.server.clients i)) :
      fd ∈ s.server.connections ∧ s.peer fd ≠ s.peer (s.server.clients i) := by
    obtain ⟨hne, hfd⟩ := Finset.mem_erase.mp hfd
    exact ⟨hfd, fun heq => hne (h.distinct fd hfd _ hconn heq)⟩
  refine ⟨h.table.close i _, fun d => ?_, fun fd hfd => ?_, fun fd hfd fd' hfd' heq => ?_,
    fun d ha he => ?_, fun fd hfd hj => ?_, fun d => ?_, h.file⟩
  · by_cases hd : d = s.peer (s.server.clients i)
    · subst hd
      simpa [State.setSession] using (h.session _).close (h.peers _ hconn).1 hr
    · simpa [State.setSession, hd] using h.session d
  · obtain ⟨hfd, hne⟩ := hpeer hfd
    simpa [State.setSession, hne] using h.peers fd hfd
  · exact h.distinct fd (hpeer hfd).1 fd' (hpeer hfd').1 heq
  · by_cases hd : d = s.peer (s.server.clients i)
    · subst hd
      simp [State.setSession] at he
    · simp only [State.setSession, Function.update_of_ne hd] at ha he
      obtain ⟨fd, hfd, rfl⟩ := h.served d ha he
      refine ⟨fd, Finset.mem_erase.mpr ⟨fun heq => hd (congrArg s.peer heq), hfd⟩, rfl⟩
  · have hold : ∀ j, s.server.clients j ≠ fd := by
      intro j hj'
      by_cases hji : j = i
      · rw [← hj', hji] at hfd
        exact Finset.notMem_erase _ _ hfd
      · exact hj j ((Function.update_of_ne hji _ _).trans hj')
    obtain ⟨hfd, hne⟩ := hpeer hfd
    simpa [State.setSession, hne] using h.stranded fd hfd hold
  · by_cases hd : d = s.peer (s.server.clients i)
    · subst hd
      simpa [State.setSession] using h.logged (s.peer (s.server.clients i))
    · simpa [State.setSession, hd] using h.logged d

theorem Invariant.server {e : SelectLogger.Event} (h : Invariant input s)
    (he : SelectLogger.Enabled k s.server e) (hp : Possible s c e) :
    Invariant input (next k s (.server e c now)) := by
  have htable := h.table.next he
  cases e with
  | select ready => exact h.setServer htable rfl rfl
  | selectFailed => exact h.setServer htable rfl rfl
  | interrupted => exact h.setServer htable rfl rfl
  | accept fd => exact h.accept he hp.2
  | acceptFailed => exact h.setServer htable rfl rfl
  | recv bytes =>
    obtain ⟨⟨i, hphase, hset⟩, -⟩ := he
    obtain ⟨d, hd, hr⟩ := hp
    have hi : s.server.clients i ≠ 0 := fun hz => h.table.set (hz ▸ hset)
    obtain rfl : s.peer (s.server.clients i) = d := by
      simpa [scanned, hphase] using hd
    by_cases hb : bytes = []
    · subst hb
      exact h.close hphase hi hr
    · rw [Receives, if_neg hb] at hr
      exact h.receive hphase hi hb hr
  | skip =>
    obtain ⟨i, hphase, -⟩ := he
    have hnext : SelectLogger.next k s.server .skip =
        { s.server with phase := SelectLogger.advance i } := by
      simp only [SelectLogger.next, hphase]
    refine h.setServer htable ?_ ?_
    · rw [hnext]
    · rw [hnext]

theorem invariant_initial : Invariant input (initial input) where
  table := ⟨fun _ _ hi => absurd rfl hi, fun _ hi => absurd rfl hi, Finset.notMem_empty 0,
    Finset.notMem_empty 0⟩
  session c := SessionInvariant.initial (input c)
  peers fd hfd := absurd hfd (Finset.notMem_empty fd)
  distinct fd hfd := absurd hfd (Finset.notMem_empty fd)
  served _ ha := absurd ha Bool.false_ne_true
  stranded fd hfd := absurd hfd (Finset.notMem_empty fd)
  logged _ := rfl
  file := rfl

theorem invariant_next {e : Event} (h : Invariant input s) (he : Enabled k s e) :
    Invariant input (next k s e) := by
  cases e with
  | connect c =>
    obtain ⟨hsound, hsent, hall, hended, hfresh⟩ := h.session c
    exact h.setSession ⟨hsound, hsent, hall, hended, hfresh⟩ rfl rfl rfl
  | round c => exact h.setSession ((h.session c).round he.2.2 he.2.1) rfl rfl rfl
  | lose c n => exact h.setSession ((h.session c).lose n) rfl rfl rfl
  | server e c now => exact h.server he.1 he.2

/-- The log is made of what the clients sent. One that was accepted, and whose connection the server
has not closed, has a slot or is not in it at all; and one whose connection the server has closed
is in it as a whole. -/
structure Logged (input : ℕ → List Byte) (s : State) : Prop where
  file : s.file = text header (entries s.chunks)
  readable :
    Readable newline header (entries s.chunks) ↔ Separable newline header (entries s.chunks)
  sound : ∀ c, Sound (input c) (s.sessions c).client
  sent : ∀ c, logged c s.chunks <+: (s.sessions c).client.handed.flatten
  ended : ∀ c, (s.sessions c).ended = true → (s.sessions c).broken = false →
    (s.sessions c).client.closed = true ∧
      logged c s.chunks = (s.sessions c).client.handed.flatten
  distinct : ∀ i j, s.server.clients i ≠ 0 → s.server.clients j ≠ 0 →
    s.peer (s.server.clients i) = s.peer (s.server.clients j) → i = j
  served : ∀ c, (s.sessions c).accepted = true → (s.sessions c).ended = false →
    (∃ i, s.server.clients i ≠ 0 ∧ s.peer (s.server.clients i) = c) ∨ logged c s.chunks = []

theorem streams_logged (k : Kernel) (input : ℕ → List Byte) {es : List Event}
    (h : (machine k input).Valid es) : Logged input ((machine k input).run es) := by
  have hinv : Invariant input ((machine k input).run es) :=
    Machine.invariant (I := Invariant input) invariant_initial
      (fun _ _ hs he => invariant_next hs he) h
  generalize (machine k input).run es = s at hinv ⊢
  refine ⟨hinv.file, readable_iff headers _, fun c => (hinv.session c).sound, fun c => ?_,
    fun c he hb => ?_, fun i j hi hj heq => ?_, fun c ha he => ?_⟩
  · rw [hinv.logged c]
    exact (Channel.Stream.received_prefix _).trans (hinv.session c).sent
  · obtain ⟨hpending, hgone⟩ := (hinv.session c).ended he
    have hall := (hinv.session c).all hb
    rw [Channel.Stream.written, hpending, List.append_nil] at hall
    rw [hinv.logged c]
    refine ⟨hgone.resolve_right ?_, hall⟩
    rw [hb]
    exact Bool.false_ne_true
  · apply hinv.table.distinct i j hi
    exact hinv.distinct _ (hinv.table.opened i hi) _ (hinv.table.opened j hj) heq
  · obtain ⟨fd, hfd, rfl⟩ := hinv.served c ha he
    by_cases hslot : ∃ i, s.server.clients i = fd
    · obtain ⟨i, rfl⟩ := hslot
      exact Or.inl ⟨i, fun hz => hinv.table.zero (hz ▸ hfd), rfl⟩
    · right
      rw [hinv.logged]
      exact hinv.stranded fd hfd (not_exists.mp hslot)

def cuttingInput (c : ℕ) : List Byte :=
  if c = 0 then ascii "one\nexit\n" else ascii "two\n"

/-- The scan from this slot on finds nothing set. -/
def skips (n : ℕ) : List Event := List.replicate n (.server .skip 0 UdpLoggers.noon)

def serve (c : ℕ) (e : SelectLogger.Event) : Event := .server e c UdpLoggers.noon

/-- A `recv` cuts the line of the first client, which then is closed. -/
def cuttingRun : List Event :=
  [.connect 0, .round 0, .connect 1, .round 1, serve 0 (.select {4}), serve 0 (.accept 5)] ++
    skips 30 ++ [serve 0 (.select {4}), serve 1 (.accept 6)] ++ skips 30 ++
    [serve 0 (.select {5, 6}), serve 0 (.recv (ascii "o")), serve 0 (.recv (ascii "two\n"))] ++
    skips 28 ++ [serve 0 (.select {5}), serve 0 (.recv (ascii "ne\n"))] ++ skips 29 ++
    [.round 0, serve 0 (.select {5}), serve 0 (.recv [])]

theorem streams_logged_cut :
    Logged cuttingInput ((machine SelectLogger.kernel cuttingInput).run cuttingRun) ∧
      ((machine SelectLogger.kernel cuttingInput).run cuttingRun).file =
        ascii "[2024-05-01 12:00:00] o[2024-05-01 12:00:00] two\n[2024-05-01 12:00:00] ne\n" :=
  ⟨streams_logged SelectLogger.kernel cuttingInput (by decide +kernel), by decide +kernel⟩

end TcpLogger
