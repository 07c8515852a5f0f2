import LinuxLabs.ThreadPoolBroadcast
import LinuxLabs.ThreadPoolShutdown

/-! # Who gets the thread-pool chat server's broadcasts (lab 15)
A broadcast goes through the client list, and a connection is on it only from `add_client` to
`remove_client` of the one worker that serves it: not while it waits in the queue. -/
namespace ThreadPoolDelivery

open Execution CString ThreadPoolServer ThreadPoolClients ThreadPoolBroadcast ThreadPoolShutdown

variable {T : ℕ}

/-- Beside the server: how many connections had been accepted when a worker last read, what
it read, and the connections whose peer has closed or failed. Nothing reads these. -/
structure State (T : ℕ) where
  server : ThreadPoolServer.State T
  read : Fin T → ℕ × List Byte
  ended : List Conn

def initial (listenFd : Fd) : State T := ⟨ThreadPoolServer.initial listenFd, fun _ => (0, []), []⟩

def Enabled (s : State T) (e : Event T) : Prop := ThreadPoolServer.Enabled s.server e

def readNext (s : State T) : Event T → Fin T → ℕ × List Byte
  | .worker w (.recv (.data chunk)) => Function.update s.read w (s.server.accepted, chunk)
  | _ => s.read

def endedNext (s : State T) : Event T → List Conn
  | .worker w (.recv .hangup) | .worker w (.recv .error) =>
    ((s.server.worker w).node.map Node.conn).toList ++ s.ended
  | _ => s.ended

def next (s : State T) (e : Event T) : State T :=
  ⟨ThreadPoolServer.next s.server e, readNext s e, endedNext s e⟩

def machine (T : ℕ) (listenFd : Fd) : Machine (State T) (Event T) :=
  ⟨initial listenFd, Enabled, next⟩

instance (s : State T) (e : Event T) : Decidable (Enabled s e) :=
  inferInstanceAs (Decidable (ThreadPoolServer.Enabled s.server e))

instance (listenFd : Fd) (s : State T) (e : Event T) :
    Decidable ((machine T listenFd).Enabled s e) := inferInstanceAs (Decidable (Enabled s e))

/-- What connection `x` has been sent of the last message in `log`. -/
def received (s : ThreadPoolServer.State T) (x : Conn) : List (ℕ × Byte) :=
  (s.written x).filter fun b => b.1 = s.log.length - 1

/-- Another connection, accepted before the worker read its message, that neither side has
closed. -/
structure Recipient (s : State T) (w : Fin T) (x : Conn) : Prop where
  early : x < (s.read w).1
  other : ∀ n, (s.server.worker w).node = some n → n.conn ≠ x
  opened : ∃ fd, s.server.sockets fd = some (.connection x)
  alive : x ∉ s.ended

/-- What the worker has not added to the list yet, or has removed from it. -/
def offList : WorkerPc → Option Node
  | .adding n | .closing n => some n
  | _ => none

/-- The connection is in the main thread's hands, in the queue, or off the list with its
worker. -/
def Unlisted (s : ThreadPoolServer.State T) (x : Conn) : Prop :=
  (∃ n ∈ accepting s.main, n.conn = x) ∨ (∃ n ∈ s.jobs, n.conn = x) ∨
    ∃ v, ∃ n ∈ offList (s.worker v), n.conn = x

instance (s : ThreadPoolServer.State T) (x : Conn) : Decidable (Unlisted s x) :=
  inferInstanceAs (Decidable (_ ∨ _ ∨ _))

/-- At the end of a broadcast all of the message has gone to every recipient. -/
def Complete (s : State T) : Event T → Prop
  | .worker w .unlock => ∀ n x, (s.server.worker w).node = some n → Recipient s w x →
    received s.server x = (message n.fd (s.read w).2).map (s.server.log.length - 1, ·)
  | _ => True

/-- At the end of a broadcast every recipient is on the client list. -/
def AllListed (s : State T) : Event T → Prop
  | .worker w .unlock => ∀ x, Recipient s w x → ¬ Unlisted s.server x
  | _ => True

/-! ## How far a broadcast has come -/

/-- The recipients the cursor has passed have all of the message, and nobody who is not on
the list has any of it. -/
structure Reaching (s : ThreadPoolServer.State T) (n : Node) (msg : List Byte)
    (rest : List Node) : Prop where
  passed : ∀ c ∈ s.clients, c ∉ rest → c.fd ≠ n.fd →
    received s c.conn = msg.map (s.log.length - 1, ·)
  absent : ∀ x, (∀ c ∈ s.clients, c.conn ≠ x) → received s x = []

variable {s s' : ThreadPoolServer.State T} {w : Fin T} {n c : Node} {msg : List Byte}
  {rest : List Node} {sent : ℕ}

theorem Reaching.keep (h : Reaching s n msg rest) (hclients : s'.clients = s.clients)
    (hwritten : s'.written = s.written) (hlog : s'.log = s.log) : Reaching s' n msg rest := by
  have hreceived (x : Conn) : received s' x = received s x := by
    rw [received, received, hwritten, hlog]
  constructor
  · intro c hc hnot hfd
    rw [hclients] at hc
    rw [hreceived, hlog]
    exact h.passed c hc hnot hfd
  · intro x hx
    rw [hclients] at hx
    rw [hreceived]
    exact h.absent x hx

theorem filter_tagged_earlier {log : List (List Byte)} {ids : List ℕ} {i : ℕ}
    (h : ∀ j ∈ ids, j < i) : (ids.flatMap (tagged log)).filter (fun b => b.1 = i) = [] := by
  rw [List.filter_eq_nil_iff]
  intro b hb
  obtain ⟨j, hj, hb⟩ := List.mem_flatMap.mp hb
  have := h j hj
  rw [tagged_fst hb]
  simp only [decide_eq_true_eq]
  omega

theorem filter_own (i : ℕ) (bytes : List Byte) :
    (bytes.map (i, ·)).filter (fun b => b.1 = i) = bytes.map (i, ·) := by
  refine List.filter_eq_self.mpr fun b hb => ?_
  obtain ⟨_, _, rfl⟩ := List.mem_map.mp hb
  simp

/-- What the recipient at the cursor has. -/
theorem received_head (h : Orderly s) (at_ : s.worker w = .broadcasting n msg (c :: rest) sent) :
    received s c.conn = (msg.take sent).map (s.log.length - 1, ·) := by
  obtain ⟨ids, hs⟩ := h.streams.stream c.conn
  have hcursor : (s.worker w).cursor = some (c :: rest) := by rw [at_]; rfl
  have hearlier : ∀ j ∈ ids, j < s.log.length - 1 := by
    intro j hj
    have := hs.awaiting w _ hcursor c List.mem_cons_self rfl j hj
    omega
  rw [received, hs.bytes, unfinished_of_holder h.clients.listed hcursor, at_, List.filter_append,
    filter_tagged_earlier hearlier, List.nil_append, underway, if_pos rfl, filter_own]

/-- Nobody has any of a message before its broadcast begins. -/
theorem received_new (h : Orderly s) (free : s.clientsMutex = none) (x : Conn) :
    (s.written x).filter (fun b => b.1 = s.log.length) = [] := by
  obtain ⟨ids, hs⟩ := h.streams.stream x
  rw [hs.bytes, unfinished, free, List.append_nil]
  exact filter_tagged_earlier hs.logged

/-- Two nodes on the list with one connection are one. -/
theorem node_eq (h : ThreadPoolClients.Invariant s) {c c' : Node} (hc : c ∈ s.clients)
    (hc' : c' ∈ s.clients) (heq : c.conn = c'.conn) : c = c' := by
  have hopen := h.named hc
  rw [heq] at hopen
  have hfd : c.fd = c'.fd := h.exclusive.unique _ _ _ hopen (h.named hc')
  cases c
  cases c'
  simp_all

theorem Reaching.lock (h : Orderly s) (free : s.clientsMutex = none) :
    Reaching ({ s with clientsMutex := some w, log := s.log ++ [msg] }.setWorker w
      (.broadcasting n msg s.clients 0)) n msg s.clients := by
  constructor
  · intro c hc hnot
    exact absurd hc hnot
  · intro x _
    have hnew := received_new h free x
    simpa [received, State.setWorker] using hnew

theorem Reaching.send (h : Reaching s n msg (c :: rest)) (hi : ThreadPoolClients.Invariant s)
    (at_ : s.worker w = .broadcasting n msg (c :: rest) sent) (bytes : List Byte) (pc : WorkerPc) :
    Reaching ((s.deliver c.fd (s.log.length - 1) bytes).setWorker w pc) n msg (c :: rest) := by
  obtain ⟨hsuffix, hopen⟩ := hi.recipient at_
  have hc : c ∈ s.clients := hsuffix.subset List.mem_cons_self
  have hother {x : Conn} (hx : x ≠ c.conn) :
      received ((s.deliver c.fd (s.log.length - 1) bytes).setWorker w pc) x = received s x := by
    simp [received, State.setWorker, State.deliver, hopen, Function.update_of_ne hx]
  constructor
  · intro c' hc' hnot hfd
    have hne : c'.conn ≠ c.conn := by
      intro heq
      exact hnot (node_eq hi hc' hc heq ▸ List.mem_cons_self)
    rw [hother hne]
    exact h.passed c' hc' hnot hfd
  · intro x hx
    rw [hother (fun heq => hx c hc heq.symm)]
    exact h.absent x hx

theorem Reaching.advance (h : Reaching s n msg (c :: rest)) (ho : Orderly s)
    (at_ : s.worker w = .broadcasting n msg (c :: rest) sent)
    (done : c.fd = n.fd ∨ sent = msg.length) (pc : WorkerPc) :
    Reaching (s.setWorker w pc) n msg rest := by
  refine ⟨fun c' hc' hnot hfd => ?_, h.absent⟩
  by_cases heq : c' = c
  · subst heq
    have hfull : sent = msg.length := done.resolve_left hfd
    have hhead := received_head ho at_
    rwa [hfull, List.take_length] at hhead
  · exact h.passed c' hc' (by simp [heq, hnot]) hfd

/-! ## Every step -/

theorem worker_others {v : Fin T} {e : WorkerEvent} (st : WorkerStep s v e s') (hw : w ≠ v) :
    s'.worker w = s.worker w := by
  cases st with
  | interrupted => rfl
  | _ => exact Function.update_of_ne hw _ _

/-- While a worker broadcasts, nobody else changes the list, the log or a stream. -/
theorem other_quiet (hl : Listed s) {v : Fin T} {e : WorkerEvent} (st : WorkerStep s v e s')
    {cursor : List Node} (hw : (s.worker w).cursor = some cursor) (hv : v ≠ w) :
    s'.clients = s.clients ∧ s'.written = s.written ∧ s'.log = s.log := by
  have hheld : s.clientsMutex ≠ none := by
    rw [(hl.holder w).mpr ⟨cursor, hw⟩]
    simp
  have hidle {l : List Node} (hc : (s.worker v).cursor = some l) : False :=
    hv (cursor_unique hl hc hw)
  cases st with
  | move | pop | receive | close | interrupted => exact ⟨rfl, rfl, rfl⟩
  | add n at_ free | lock n msg at_ free | remove n at_ free => exact absurd free hheld
  | send n msg c rest sent k at_ => exact (hidle (by rw [at_]; rfl)).elim
  | giveUp r n msg c rest sent at_ => exact (hidle (by rw [at_]; rfl)).elim
  | advance n msg c rest sent at_ => exact (hidle (by rw [at_]; rfl)).elim
  | unlock n msg sent at_ => exact (hidle (by rw [at_]; rfl)).elim

structure Tracking (s : State T) : Prop where
  orderly : Orderly s.server
  ledger : ∃ calls, Ledger s.server calls
  locking : ∀ w n msg, s.server.worker w = .locking n msg → msg = message n.fd (s.read w).2
  broadcast : ∀ w n msg rest sent, s.server.worker w = .broadcasting n msg rest sent →
    msg = message n.fd (s.read w).2 ∧ Reaching s.server n msg rest

theorem readNext_other {s : State T} {v : Fin T} {e : WorkerEvent} (hv : w ≠ v) :
    readNext s (.worker v e) w = s.read w := by
  cases e with
  | recv r =>
    cases r with
    | data chunk => exact Function.update_of_ne hv _ _
    | hangup | retry | error => rfl
  | _ => rfl

/-- What is to hold of the worker that has moved. -/
structure Moved (s s' : State T) (v : Fin T) : Prop where
  locking : ∀ n msg, s'.server.worker v = .locking n msg → msg = message n.fd (s'.read v).2
  broadcast : ∀ n msg rest sent, s'.server.worker v = .broadcasting n msg rest sent →
    msg = message n.fd (s'.read v).2 ∧ Reaching s'.server n msg rest

theorem Tracking.moved {s : State T} (h : Tracking s) {v : Fin T} {e : WorkerEvent}
    (he : ThreadPoolServer.Enabled s.server (.worker v e))
    (hc : NoSendError s.server (.worker v e)) : Moved s (next s (.worker v e)) v := by
  have st := worker_step he
  have hset {s₁ : ThreadPoolServer.State T} {pc : WorkerPc} {read : Fin T → ℕ × List Byte}
      {ended : List Conn} (hlocking : ∀ n msg, pc = .locking n msg → msg = message n.fd (read v).2)
      (hbroadcast : ∀ n msg rest sent, pc = .broadcasting n msg rest sent →
        msg = message n.fd (read v).2 ∧ Reaching (s₁.setWorker v pc) n msg rest) :
      Moved s ⟨s₁.setWorker v pc, read, ended⟩ v := by
    constructor
    · intro n msg hw
      rw [setWorker_worker, Function.update_self] at hw
      exact hlocking n msg hw
    · intro n msg rest sent hw
      rw [setWorker_worker, Function.update_self] at hw
      exact hbroadcast n msg rest sent hw
  have hi := h.orderly.clients
  unfold next
  generalize ThreadPoolServer.next s.server (.worker v e) = s₁ at st
  cases st with
  | move e pc node listed before after text =>
    refine hset (fun n msg hpc => absurd hpc (text n msg)) fun n msg rest sent hpc => ?_
    rw [hpc] at after
    cases after
  | pop | add | unlock | remove | close => exact hset (by simp) (by simp)
  | receive n chunk at_ =>
    refine hset (fun m msg hpc => ?_) (by simp)
    cases hpc
    simp [readNext]
  | lock n msg at_ free =>
    refine hset (by simp) fun m msg' rest sent hpc => ?_
    cases hpc
    exact ⟨h.locking v n msg at_, Reaching.lock h.orderly free⟩
  | send n msg c rest sent k at_ other =>
    refine hset (by simp) fun m msg' rest' sent' hpc => ?_
    cases hpc
    obtain ⟨hmsg, hreach⟩ := h.broadcast v _ _ _ _ at_
    exact ⟨hmsg, hreach.send hi at_ _ _⟩
  | interrupted => exact ⟨h.locking v, h.broadcast v⟩
  | giveUp r n msg c rest sent at_ error => rcases error with rfl | rfl <;> exact hc.elim
  | advance n msg c rest sent at_ done =>
    refine hset (by simp) fun m msg' rest' sent' hpc => ?_
    cases hpc
    obtain ⟨hmsg, hreach⟩ := h.broadcast v _ _ _ _ at_
    exact ⟨hmsg, hreach.advance h.orderly at_ done _⟩

theorem next_tracking {s : State T} (h : Tracking s) {e : Event T} (he : Enabled s e)
    (hc : NoSendError s.server e) : Tracking (next s e) := by
  obtain ⟨calls, hledger⟩ := h.ledger
  have horderly := step_orderly h.orderly he hc
  have hledger' : ∃ calls, Ledger (next s e).server calls := ⟨_, next_ledger hledger he⟩
  have hsame (hworker : (next s e).server.worker = s.server.worker)
      (hclients : (next s e).server.clients = s.server.clients)
      (hwritten : (next s e).server.written = s.server.written)
      (hlog : (next s e).server.log = s.server.log) (hread : (next s e).read = s.read) :
      Tracking (next s e) := by
    refine ⟨horderly, hledger', ?_, ?_⟩
    · rw [hworker, hread]
      exact h.locking
    · intro w n msg rest sent hw
      rw [hworker] at hw
      obtain ⟨hmsg, hreach⟩ := h.broadcast w n msg rest sent hw
      rw [hread]
      exact ⟨hmsg, hreach.keep hclients hwritten hlog⟩
  cases e with
  | signal | signalClose => exact hsame rfl rfl rfl rfl rfl
  | main e =>
    obtain ⟨hlog, hwritten, -, hworker⟩ := main_frame s.server e
    refine hsame hworker ?_ hwritten hlog rfl
    simp only [next, ThreadPoolServer.next, mainNext]
    split <;> rfl
  | worker v e =>
    have hmoved := h.moved he hc
    have hworker {w : Fin T} (hw : w ≠ v) :
        (next s (.worker v e)).server.worker w = s.server.worker w :=
      worker_others (worker_step he) hw
    refine ⟨horderly, hledger', fun w n msg hw => ?_, fun w n msg rest sent hw => ?_⟩
    · by_cases hwv : w = v
      · subst hwv
        exact hmoved.locking n msg hw
      · rw [hworker hwv] at hw
        simp only [next, readNext_other hwv]
        exact h.locking w n msg hw
    · by_cases hwv : w = v
      · subst hwv
        exact hmoved.broadcast n msg rest sent hw
      · rw [hworker hwv] at hw
        simp only [next, readNext_other hwv]
        obtain ⟨hmsg, hreach⟩ := h.broadcast w n msg rest sent hw
        have hcursor : (s.server.worker w).cursor = some rest := by
          rw [hw]
          rfl
        obtain ⟨hclients, hwritten, hlog⟩ :=
          other_quiet h.orderly.clients.listed (worker_step he) hcursor (Ne.symm hwv)
        exact ⟨hmsg, hreach.keep hclients hwritten hlog⟩

theorem initial_tracking (listenFd : Fd) : Tracking (initial listenFd : State T) where
  orderly := initial_orderly listenFd
  ledger := ⟨[], initial_ledger listenFd⟩
  locking w n msg hw := by cases hw
  broadcast w n msg rest sent hw := by cases hw

theorem run_tracking {listenFd : Fd} {es : List (Event T)} (h : (machine T listenFd).Valid es)
    (hc : (machine T listenFd).Along (fun s e => NoSendError s.server e) es) :
    Tracking ((machine T listenFd).run es) :=
  Machine.invariant_along (M := machine T listenFd) (initial_tracking listenFd)
    (fun _ _ hs he hc => next_tracking hs he hc) h hc

/-! ## Every broadcast -/

theorem message_ne_nil (fd : Fd) (chunk : List Byte) : message fd chunk ≠ [] := by
  have htag : tag fd ≠ [] := by
    simp [tag, snprintf, outSize, bufSize, ascii]
  simp [message, htag]

/-- An open connection is on the client list or in one of the other places. -/
theorem listed_or_unlisted {calls : List (Option Socket)} (h : Ledger s calls) {fd : Fd} {x : Conn}
    (hx : s.sockets fd = some (.connection x)) : ⟨fd, x⟩ ∈ s.clients ∨ Unlisted s x := by
  obtain ⟨p, hp⟩ := h.owned fd x hx
  cases p with
  | main => exact Or.inr (Or.inl ⟨_, hp, rfl⟩)
  | job i => exact Or.inr (Or.inr (Or.inl ⟨_, List.mem_of_getElem? hp, rfl⟩))
  | worker v =>
    have hlisted (hl : (s.worker v).listed = some ⟨fd, x⟩) : ⟨fd, x⟩ ∈ s.clients :=
      (h.safe.listed.listed _).mpr ⟨v, hl⟩
    simp only [held] at hp
    cases hw : s.worker v with
    | top | popping | exited =>
      rw [hw] at hp
      cases hp
    | adding n | closing n =>
      rw [hw] at hp
      cases hp
      exact Or.inr (Or.inr (Or.inr ⟨v, ⟨fd, x⟩, by rw [hw]; rfl, rfl⟩))
    | serving | receiving | locking | broadcasting | removing =>
      rw [hw] at hp
      cases hp
      exact Or.inl (hlisted (by rw [hw]; rfl))

theorem Unlisted.not_listed {x : Conn} (hu : Unlisted s x) (h : ThreadPoolClients.Invariant s) :
    ∀ c ∈ s.clients, c.conn ≠ x := by
  rintro c hc rfl
  obtain ⟨w, hw⟩ := (h.listed.listed c).mp hc
  have hplace {p : Place T} {n : Node} (hp : held s p = some n) (hn : n.conn = c.conn) :
      p = .worker w := by
    have hopen := h.exclusive.named p n hp
    rw [hn] at hopen
    exact h.exclusive.apart _ _ _ _ hp (held_worker hw)
      (h.exclusive.unique _ _ _ hopen (h.named hc))
  rcases hu with ⟨n, hm, hn⟩ | ⟨n, hj, hn⟩ | ⟨v, n, hv, hn⟩
  · cases hplace (p := .main) hm hn
  · obtain ⟨i, hi⟩ := List.mem_iff_getElem?.mp hj
    cases hplace (p := .job i) hi hn
  · have hnode : (s.worker v).node = some n ∧ (s.worker v).listed = none := by
      cases hpc : s.worker v with
      | adding m | closing m =>
        rw [hpc] at hv
        exact ⟨hv, rfl⟩
      | _ =>
        rw [hpc] at hv
        cases hv
    cases hplace (p := .worker v) hnode.1 hn
    rw [hnode.2] at hw
    cases hw

theorem complete_iff {s : State T} (h : Tracking s) {e : Event T} (he : Enabled s e) :
    Complete s e ↔ AllListed s e := by
  obtain ⟨calls, hledger⟩ := h.ledger
  have hi := h.orderly.clients
  unfold Complete AllListed
  split
  swap
  · exact Iff.rfl
  next w =>
  obtain ⟨n, msg, sent, at_⟩ : ∃ n msg sent, s.server.worker w = .broadcasting n msg [] sent := by
    simp only [Enabled, ThreadPoolServer.Enabled] at he
    generalize s.server.worker w = pc at he
    cases pc with
    | broadcasting n msg rest sent =>
      cases rest with
      | nil => exact ⟨n, msg, sent, rfl⟩
      | cons c rest => exact he.elim
    | _ => exact he.elim
  have hnode : (s.server.worker w).node = some n := by rw [at_]; rfl
  obtain ⟨rfl, hreach⟩ := h.broadcast w n msg [] sent at_
  constructor
  · intro hall x hx hu
    have hgot := hall n x hnode hx
    rw [hreach.absent x (hu.not_listed hi)] at hgot
    exact message_ne_nil _ _ (List.map_eq_nil_iff.mp hgot.symm)
  · intro hall n' x hn' hx
    obtain rfl : n = n' := Option.some.inj (hnode.symm.trans hn')
    obtain ⟨fd, hfd⟩ := hx.opened
    rcases listed_or_unlisted hledger hfd with hc | hu
    · refine hreach.passed ⟨fd, x⟩ hc List.not_mem_nil fun heq => ?_
      have hown := hi.exclusive.named (.worker w) n hnode
      rw [← heq, hfd] at hown
      exact hx.other n hnode (Socket.connection.inj (Option.some.inj hown)).symm
    · exact absurd hu (hall x hx)

/-- Without send errors, all recipients get all of a message exactly when all are on the client
list. -/
theorem broadcasts_complete_iff (T : ℕ) (listenFd : Fd) (es : List (Event T))
    (h : (machine T listenFd).Valid es)
    (hc : (machine T listenFd).Along (fun s e => NoSendError s.server e) es) :
    (machine T listenFd).Along Complete es ↔ (machine T listenFd).Along AllListed es :=
  Machine.along_congr (fun _ _ hv hc he => complete_iff (run_tracking hv hc) he) h hc

/-- The third client is accepted after the message was read. -/
theorem broadcast_complete_two_workers :
    let es : List (Event 2) := [.main .test, .main (.accept 4), .main .push, .main .test,
      .main (.accept 5), .main .push, .worker 0 .test, .worker 0 .pop, .worker 0 .add,
      .worker 0 .test, .worker 1 .test, .worker 1 .pop, .worker 1 .add,
      .worker 0 (.recv (.data (ascii "hi"))), .main .test, .main (.accept 6), .main .push,
      .worker 0 .lock, .worker 0 (.send (.accepted 6)), .worker 0 .advance, .worker 0 .advance,
      .worker 0 .unlock]
    (machine 2 3).Along Complete es := by
  intro es
  have hv : (machine 2 3).Valid es := by decide +kernel
  have hc : (machine 2 3).Along (fun s e => NoSendError s.server e) es := by decide +kernel
  refine (broadcasts_complete_iff 2 3 es hv hc).mpr ?_
  -- only the last step ends a broadcast
  refine ⟨trivial, trivial, trivial, trivial, trivial, trivial, trivial, trivial, trivial, trivial,
    trivial, trivial, trivial, trivial, trivial, trivial, trivial, trivial, trivial, trivial,
    trivial, fun x hx => ?_, trivial⟩
  have hlt : x < 2 := hx.early
  rcases Nat.le_one_iff_eq_zero_or_eq_one.mp (Nat.le_of_lt_succ hlt) with rfl | rfl
  · exact absurd rfl (hx.other ⟨4, 0⟩ rfl)
  · decide +kernel

/-- With one worker, the second client waits in the queue while the first one's message is
broadcast. -/
theorem queued_client_missed :
    let es : List (Event 1) := [.main .test, .main (.accept 4), .main .push, .worker 0 .test,
      .worker 0 .pop, .worker 0 .add, .worker 0 .test, .main .test, .main (.accept 5), .main .push,
      .worker 0 (.recv (.data (ascii "hi"))), .worker 0 .lock, .worker 0 .advance]
    (machine 1 3).Valid (es ++ [.worker 0 .unlock]) ∧
      (machine 1 3).Along (fun s e => NoSendError s.server e) (es ++ [.worker 0 .unlock]) ∧
      Recipient ((machine 1 3).run es) 0 1 ∧ ((machine 1 3).run es).server.written 1 = [] ∧
      ¬ (machine 1 3).Along Complete (es ++ [.worker 0 .unlock]) := by
  intro es
  have hrecipient : Recipient ((machine 1 3).run es) 0 1 := by
    refine ⟨by decide +kernel, fun n hn => ?_, ⟨5, by decide +kernel⟩, by decide +kernel⟩
    obtain rfl : ⟨4, 0⟩ = n := Option.some.inj hn
    decide
  refine ⟨by decide +kernel, by decide +kernel, hrecipient, by decide +kernel, fun hall => ?_⟩
  have hlast := ((Machine.along_concat es _).mp hall).2 ⟨4, 0⟩ 1 rfl hrecipient
  revert hlast
  decide +kernel

end ThreadPoolDelivery
