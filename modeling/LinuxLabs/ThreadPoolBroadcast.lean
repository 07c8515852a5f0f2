import LinuxLabs.ThreadPoolClients
import Mathlib.Data.List.Pairwise

/-! # The thread-pool chat server's broadcasts
Whoever broadcasts keeps `clients_mutex` from the first recipient to the last, so `log`, the
order in which the mutex was taken, is the order of every client's stream. -/
namespace ThreadPoolBroadcast

open Execution CString ThreadPoolServer ThreadPoolClients

variable {T : ℕ}

/-- The bytes of message `i`, each with its place in `log`. -/
def tagged (log : List (List Byte)) (i : ℕ) : List (ℕ × Byte) :=
  match log[i]? with
  | none => []
  | some msg => msg.map (i, ·)

/-- What a connection has been sent of the message a worker is broadcasting, if its node is
the one the cursor is at. -/
def underway (i : ℕ) (x : Conn) : WorkerPc → List (ℕ × Byte)
  | .broadcasting _ msg (c :: _) sent => if c.conn = x then (msg.take sent).map (i, ·) else []
  | _ => []

def unfinished (s : State T) (x : Conn) : List (ℕ × Byte) :=
  match s.clientsMutex with
  | none => []
  | some w => underway (s.log.length - 1) x (s.worker w)

/-- The messages a connection has been sent bytes of, in the order of its stream. -/
def sentTo (s : State T) (x : Conn) : List ℕ := (s.written x).map Prod.fst

def IsText (msg : List Byte) : Prop :=
  ∃ fd chunk, chunk ≠ [] ∧ chunk.length ≤ bufSize ∧
    msg = ascii "[" ++ decimal fd ++ ascii "] " ++ chunk

structure WholeMessages (s : State T) : Prop where
  text : ∀ msg ∈ s.log, IsText msg
  stream : ∀ x, ∃ ids : List ℕ, ids.Pairwise (· < ·) ∧ (∀ i ∈ ids, i < s.log.length) ∧
    s.written x = ids.flatMap (tagged s.log) ++ unfinished s x
  order : ∀ x y i j, i ∈ sentTo s x → j ∈ sentTo s x → i ∈ sentTo s y → j ∈ sentTo s y →
    ((sentTo s x).idxOf i < (sentTo s x).idxOf j ↔ (sentTo s y).idxOf i < (sentTo s y).idxOf j)

/-- No `send` of the run gives up on its message. -/
def NoSendError (_ : State T) : Event T → Prop
  | .worker _ (.send .wouldBlock) | .worker _ (.send .failed) => False
  | _ => True

instance (s : State T) (e : Event T) : Decidable (NoSendError s e) := by
  casesm* Event _, WorkerEvent, SendResult <;> simp only [NoSendError] <;> infer_instance

/-! ## The text of a message -/

theorem message_eq {fd : ℕ} (hfd : fd ≤ intMax) {chunk : List Byte}
    (hc : chunk.length ≤ bufSize) :
    message fd chunk = ascii "[" ++ decimal fd ++ ascii "] " ++ chunk := by
  have hd : (decimal fd).length ≤ 10 := by
    rw [decimal, List.length_map]
    refine (Nat.length_toDigits_le_iff (by omega) (by omega)).mpr ?_
    unfold intMax at hfd
    omega
  have hb : (ascii "[").length = 1 := rfl
  have he : (ascii "] ").length = 2 := rfl
  have htag : tag fd = ascii "[" ++ decimal fd ++ ascii "] " := by
    refine List.take_of_length_le ?_
    simp only [List.length_append, hb, he, outSize, bufSize]
    omega
  rw [message, htag]
  congr 1
  refine List.take_of_length_le ?_
  simp only [List.length_append, hb, he, outSize, bufSize] at hc ⊢
  omega

structure Texts (s : State T) : Prop where
  logged : ∀ msg ∈ s.log, IsText msg
  locking : ∀ w n msg, s.worker w = .locking n msg → IsText msg

theorem Texts.stepped {s s₁ : State T} (h : Texts s) {w : Fin T} {pc : WorkerPc}
    (hlog : ∀ msg ∈ s₁.log, IsText msg) (hworker : s₁.worker = s.worker)
    (hpc : ∀ n msg, pc = .locking n msg → IsText msg) : Texts (s₁.setWorker w pc) := by
  refine ⟨hlog, fun v n msg hv => ?_⟩
  rw [setWorker_worker, hworker] at hv
  by_cases hvw : v = w
  · subst v
    rw [Function.update_self] at hv
    exact hpc n msg hv
  · rw [Function.update_of_ne hvw] at hv
    exact h.locking v n msg hv

theorem Texts.worker {s s' : State T} {w : Fin T} {e : WorkerEvent} (h : Texts s)
    (hi : Invariant s) (st : WorkerStep s w e s') : Texts s' := by
  cases st with
  | move e pc node listed before after text =>
    exact h.stepped h.logged rfl fun n msg hpc => absurd hpc (text n msg)
  | receive n chunk at_ possible =>
    obtain ⟨hne, hlen⟩ := possible
    refine h.stepped h.logged rfl fun m msg hpc => ?_
    cases hpc
    have hfd := hi.exclusive.named (.worker w) n (by simp [held, at_, WorkerPc.node])
    exact ⟨n.fd, chunk, hne, hlen, message_eq (hi.exclusive.issued _ _ hfd).1 hlen⟩
  | lock n msg at_ =>
    refine h.stepped (fun m hm => ?_) rfl (by simp)
    rcases List.mem_append.mp hm with hm | hm
    · exact h.logged m hm
    · rw [List.mem_singleton.mp hm]
      exact h.locking w n msg at_
  | interrupted => exact h
  | pop | add | send | giveUp | advance | unlock | remove | close =>
    exact h.stepped h.logged rfl (by simp)

/-! ## Every stream follows the log -/

structure Stream (s : State T) (x : Conn) (ids : List ℕ) : Prop where
  increasing : ids.Pairwise (· < ·)
  logged : ∀ i ∈ ids, i < s.log.length
  awaiting : ∀ w rest, (s.worker w).cursor = some rest → ∀ c ∈ rest, c.conn = x →
    ∀ i ∈ ids, i + 1 < s.log.length
  bytes : s.written x = ids.flatMap (tagged s.log) ++ unfinished s x

structure Streams (s : State T) : Prop where
  current : ∀ w n msg rest sent, s.worker w = .broadcasting n msg rest sent →
    s.log.getLast? = some msg
  own : ∀ w n msg c rest sent, s.worker w = .broadcasting n msg (c :: rest) sent →
    c.fd = n.fd → sent = 0
  stream : ∀ x, ∃ ids, Stream s x ids

theorem underway_of_cursor {i : ℕ} {x : Conn} {pc : WorkerPc} (h : pc.cursor = none) :
    underway i x pc = [] := by
  cases pc <;> first | rfl | cases h

/-- Nothing that the streams depend on has changed. -/
theorem Streams.quiet {s s' : State T} (h : Streams s) (hlog : s'.log = s.log)
    (hwritten : s'.written = s.written) (hmutex : s'.clientsMutex = s.clientsMutex)
    (hworker : ∀ v, s'.worker v = s.worker v ∨
      (s.worker v).cursor = none ∧ (s'.worker v).cursor = none) : Streams s' := by
  have hsame {v : Fin T} {rest : List Node} (hc : (s'.worker v).cursor = some rest) :
      s'.worker v = s.worker v := by
    rcases hworker v with heq | ⟨_, hnone⟩
    · exact heq
    · rw [hnone] at hc
      cases hc
  have hunf (x : Conn) : unfinished s' x = unfinished s x := by
    unfold unfinished
    rw [hmutex, hlog]
    split
    · rfl
    · next w _ =>
      rcases hworker w with heq | ⟨hold, hnew⟩
      · rw [heq]
      · rw [underway_of_cursor hold, underway_of_cursor hnew]
  refine ⟨fun w n msg rest sent hw => ?_, fun w n msg c rest sent hw => ?_, fun x => ?_⟩
  · rw [hlog]
    exact h.current w n msg rest sent (hsame (by rw [hw]; rfl) ▸ hw)
  · exact h.own w n msg c rest sent (hsame (by rw [hw]; rfl) ▸ hw)
  · obtain ⟨ids, hs⟩ := h.stream x
    refine ⟨ids, hs.increasing, ?_, fun w rest hw => ?_, ?_⟩
    · rw [hlog]
      exact hs.logged
    · rw [hlog]
      exact hs.awaiting w rest (hsame hw ▸ hw)
    · rw [hwritten, hlog, hunf]
      exact hs.bytes

theorem tagged_append {log : List (List Byte)} {i : ℕ} (h : i < log.length) (msg : List Byte) :
    tagged (log ++ [msg]) i = tagged log i := by
  rw [tagged, tagged, List.getElem?_append_left h]

theorem flatMap_tagged_append {log : List (List Byte)} {ids : List ℕ}
    (h : ∀ i ∈ ids, i < log.length) (msg : List Byte) :
    ids.flatMap (tagged (log ++ [msg])) = ids.flatMap (tagged log) :=
  List.flatMap_congr fun i hi => tagged_append (h i hi) msg

theorem tagged_last {log : List (List Byte)} {msg : List Byte} (h : log.getLast? = some msg) :
    tagged log (log.length - 1) = msg.map (log.length - 1, ·) := by
  rw [tagged, ← List.getLast?_eq_getElem?, h]

theorem underway_start (i : ℕ) (x : Conn) (n : Node) (msg : List Byte) (rest : List Node) :
    underway i x (.broadcasting n msg rest 0) = [] := by
  cases rest <;> simp [underway]

theorem unfinished_of_holder {s : State T} (hl : Listed s) {w : Fin T} {rest : List Node}
    (hw : (s.worker w).cursor = some rest) (x : Conn) :
    unfinished s x = underway (s.log.length - 1) x (s.worker w) := by
  rw [unfinished, (hl.holder w).mpr ⟨rest, hw⟩]

theorem cursor_unique {s : State T} (hl : Listed s) {v w : Fin T} {rest rest' : List Node}
    (hv : (s.worker v).cursor = some rest) (hw : (s.worker w).cursor = some rest') : v = w :=
  Option.some.inj (((hl.holder v).mpr ⟨rest, hv⟩).symm.trans ((hl.holder w).mpr ⟨rest', hw⟩))

theorem others_idle {s : State T} (hl : Listed s) {w : Fin T} {rest : List Node}
    (hw : (s.worker w).cursor = some rest) (v : Fin T) (hv : v ≠ w) :
    (s.worker v).cursor = none := by
  by_contra hc
  obtain ⟨l, hc⟩ := Option.ne_none_iff_exists'.mp hc
  exact hv (cursor_unique hl hc hw)

/-- A worker gets hold of the mutex or goes on with its broadcast; the others have no cursor. -/
theorem Streams.broadcasting {s s' : State T} {w : Fin T} {n : Node} {msg : List Byte}
    {rest : List Node} {sent : ℕ}
    (hworker : s'.worker = Function.update s.worker w (.broadcasting n msg rest sent))
    (hmutex : s'.clientsMutex = some w) (hothers : ∀ v, v ≠ w → (s.worker v).cursor = none)
    (hlast : s'.log.getLast? = some msg) (hown : ∀ c ∈ rest.head?, c.fd = n.fd → sent = 0)
    (hstream : ∀ x, ∃ ids : List ℕ, ids.Pairwise (· < ·) ∧ (∀ i ∈ ids, i < s'.log.length) ∧
      (∀ c ∈ rest, c.conn = x → ∀ i ∈ ids, i + 1 < s'.log.length) ∧
      s'.written x = ids.flatMap (tagged s'.log) ++
        underway (s'.log.length - 1) x (.broadcasting n msg rest sent)) : Streams s' := by
  have hat {v : Fin T} {l : List Node} (hc : (s'.worker v).cursor = some l) : v = w := by
    by_contra hv
    rw [hworker, Function.update_of_ne hv, hothers v hv] at hc
    cases hc
  have hself : s'.worker w = .broadcasting n msg rest sent := by rw [hworker, Function.update_self]
  refine ⟨fun v m msg' rest' sent' hv => ?_, fun v m msg' c rest' sent' hv hfd => ?_, fun x => ?_⟩
  · obtain rfl := hat (v := v) (by rw [hv]; rfl)
    obtain ⟨_, rfl, _, _⟩ := WorkerPc.broadcasting.inj (hself.symm.trans hv)
    exact hlast
  · obtain rfl := hat (v := v) (by rw [hv]; rfl)
    obtain ⟨rfl, _, rfl, rfl⟩ := WorkerPc.broadcasting.inj (hself.symm.trans hv)
    exact hown c rfl hfd
  · obtain ⟨ids, hinc, hlog, hawait, hbytes⟩ := hstream x
    refine ⟨ids, hinc, hlog, fun v l hv => ?_, ?_⟩
    · obtain rfl := hat hv
      rw [hself] at hv
      cases hv
      exact hawait
    · rw [hbytes, unfinished, hmutex]
      dsimp only
      rw [hself]

theorem Streams.lock {s : State T} (h : Streams s) (hl : Listed s) {w : Fin T}
    (free : s.clientsMutex = none) (n : Node) (msg : List Byte) :
    Streams ({ s with clientsMutex := some w, log := s.log ++ [msg] }.setWorker w
      (.broadcasting n msg s.clients 0)) := by
  have hnone (v : Fin T) : (s.worker v).cursor = none := by
    by_contra hv
    rw [hl.free hv] at free
    cases free
  refine Streams.broadcasting rfl rfl (fun v _ => hnone v) List.getLast?_concat (fun _ _ _ => rfl)
    fun x => ?_
  obtain ⟨ids, hs⟩ := h.stream x
  have hlen : (s.log ++ [msg]).length = s.log.length + 1 := by simp
  change ∃ ids : List ℕ, ids.Pairwise (· < ·) ∧ (∀ i ∈ ids, i < (s.log ++ [msg]).length) ∧
    (∀ c ∈ s.clients, c.conn = x → ∀ i ∈ ids, i + 1 < (s.log ++ [msg]).length) ∧
    s.written x = ids.flatMap (tagged (s.log ++ [msg])) ++ _
  rw [hlen]
  refine ⟨ids, hs.increasing, fun i hi => ?_, fun _ _ _ i hi => ?_, ?_⟩
  · exact Nat.lt_succ_of_lt (hs.logged i hi)
  · exact Nat.succ_lt_succ (hs.logged i hi)
  · have hb := hs.bytes
    rw [unfinished, free] at hb
    rw [underway_start, flatMap_tagged_append hs.logged]
    exact hb

theorem Streams.send {s : State T} (h : Streams s) (hi : Invariant s) {w : Fin T} {n c : Node}
    {msg : List Byte} {rest : List Node} {sent k : ℕ}
    (at_ : s.worker w = .broadcasting n msg (c :: rest) sent) (other : c.fd ≠ n.fd) :
    Streams ((s.deliver c.fd (s.log.length - 1) ((msg.drop sent).take k)).setWorker w
      (.broadcasting n msg (c :: rest) (sent + k))) := by
  have hw : (s.worker w).cursor = some (c :: rest) := by rw [at_]; rfl
  have hopen := (hi.recipient at_).2
  refine Streams.broadcasting rfl ((hi.listed.holder w).mpr ⟨_, hw⟩) (others_idle hi.listed hw)
    (h.current w _ _ _ _ at_) (fun d hd hfd => ?_) fun x => ?_
  · cases hd
    exact absurd hfd other
  · obtain ⟨ids, hs⟩ := h.stream x
    refine ⟨ids, hs.increasing, hs.logged, hs.awaiting w _ hw, ?_⟩
    have hb := hs.bytes
    rw [unfinished_of_holder hi.listed hw, at_] at hb
    simp only [State.setWorker, State.deliver, hopen]
    by_cases hx : c.conn = x
    · subst x
      simp only [underway, if_true] at hb ⊢
      rw [Function.update_self, hb, List.append_assoc, ← List.map_append, List.take_add]
    · simp only [underway, if_neg hx] at hb ⊢
      rw [Function.update_of_ne (Ne.symm hx), hb]

/-- Two nodes on the list are for two connections. -/
theorem conn_ne {s : State T} (hi : Invariant s) {w : Fin T} {n c : Node} {msg : List Byte}
    {rest : List Node} {sent : ℕ} (at_ : s.worker w = .broadcasting n msg (c :: rest) sent) :
    ∀ m ∈ rest, m.conn ≠ c.conn := by
  intro m hm heq
  obtain ⟨hsuf, hopen⟩ := hi.recipient at_
  have hm' := hi.named (hsuf.subset (List.mem_cons_of_mem c hm))
  rw [heq] at hm'
  have hfd := hi.exclusive.unique _ _ _ hm' hopen
  have hnd : KeyedTable.Distinct Node.fd (c :: rest) :=
    hi.listed.distinct.sublist (hsuf.sublist.map _)
  exact (List.nodup_cons.mp hnd).1 (List.mem_map.mpr ⟨m, hm, hfd⟩)

theorem Streams.advance {s : State T} (h : Streams s) (hi : Invariant s) {w : Fin T} {n c : Node}
    {msg : List Byte} {rest : List Node} {sent : ℕ}
    (at_ : s.worker w = .broadcasting n msg (c :: rest) sent)
    (done : c.fd = n.fd ∨ sent = msg.length) :
    Streams (s.setWorker w (.broadcasting n msg rest 0)) := by
  have hw : (s.worker w).cursor = some (c :: rest) := by rw [at_]; rfl
  have hlast := h.current w _ _ _ _ at_
  have hpos : 0 < s.log.length := List.length_pos_iff.mpr fun hnil => by simp [hnil] at hlast
  refine Streams.broadcasting rfl ((hi.listed.holder w).mpr ⟨_, hw⟩) (others_idle hi.listed hw)
    hlast (fun _ _ _ => rfl) fun x => ?_
  · obtain ⟨ids, hs⟩ := h.stream x
    have hb := hs.bytes
    rw [unfinished_of_holder hi.listed hw, at_] at hb
    rw [underway_start]
    change ∃ ids : List ℕ, ids.Pairwise (· < ·) ∧ (∀ i ∈ ids, i < s.log.length) ∧
      (∀ m ∈ rest, m.conn = x → ∀ i ∈ ids, i + 1 < s.log.length) ∧
      s.written x = ids.flatMap (tagged s.log) ++ []
    by_cases hx : c.conn = x
    · subst x
      have hawait := hs.awaiting w _ hw c List.mem_cons_self rfl
      simp only [underway, if_true] at hb
      rcases done with hown | hfull
      · -- the sender's own node was skipped
        rw [h.own w _ _ _ _ _ at_ hown] at hb
        exact ⟨ids, hs.increasing, hs.logged, fun m hm hmc => absurd hmc (conn_ne hi at_ m hm), hb⟩
      · refine ⟨ids ++ [s.log.length - 1], ?_, fun i hi' => ?_,
          fun m hm hmc => absurd hmc (conn_ne hi at_ m hm), ?_⟩
        · refine List.pairwise_append.mpr ⟨hs.increasing, List.pairwise_singleton _ _, ?_⟩
          intro i hi' j hj
          rw [List.mem_singleton.mp hj]
          have := hawait i hi'
          omega
        · rcases List.mem_append.mp hi' with hi' | hi'
          · exact hs.logged i hi'
          · rw [List.mem_singleton.mp hi']
            omega
        · rw [hfull, List.take_length] at hb
          rw [hb, List.flatMap_append, List.flatMap_singleton, tagged_last hlast, List.append_nil]
    · simp only [underway, if_neg hx] at hb
      exact ⟨ids, hs.increasing, hs.logged,
        fun m hm => hs.awaiting w _ hw m (List.mem_cons_of_mem c hm), hb⟩

theorem Streams.unlock {s : State T} (h : Streams s) (hl : Listed s) {w : Fin T} {n : Node}
    {msg : List Byte} {sent : ℕ} (at_ : s.worker w = .broadcasting n msg [] sent) :
    Streams ({ s with clientsMutex := none }.setWorker w (.serving n)) := by
  have hw : (s.worker w).cursor = some [] := by rw [at_]; rfl
  have hnone (v : Fin T) (rest : List Node) :
      (Function.update s.worker w (.serving n) v).cursor ≠ some rest := by
    intro hv
    by_cases hvw : v = w
    · subst v
      rw [Function.update_self] at hv
      cases hv
    · rw [Function.update_of_ne hvw] at hv
      exact hvw (cursor_unique hl hv hw)
  refine ⟨fun v m msg' rest sent' hv => ?_, fun v m msg' c rest sent' hv => ?_, fun x => ?_⟩
  · exact absurd (by rw [setWorker_worker] at hv; rw [hv]; rfl) (hnone v rest)
  · exact absurd (by rw [setWorker_worker] at hv; rw [hv]; rfl) (hnone v (c :: rest))
  · obtain ⟨ids, hs⟩ := h.stream x
    refine ⟨ids, hs.increasing, hs.logged, fun v rest hv => absurd hv (hnone v rest), ?_⟩
    have hb := hs.bytes
    rw [unfinished_of_holder hl hw, at_] at hb
    exact hb

theorem Streams.worker {s s' : State T} {w : Fin T} {e : WorkerEvent} (h : Streams s)
    (hi : Invariant s) (st : WorkerStep s w e s') (hc : NoSendError s (.worker w e)) :
    Streams s' := by
  have hquiet (s₁ : State T) (pc : WorkerPc) (before : (s.worker w).cursor = none)
      (after : pc.cursor = none) (hlog : s₁.log = s.log) (hwritten : s₁.written = s.written)
      (hmutex : s₁.clientsMutex = s.clientsMutex) (hworker : s₁.worker = s.worker) :
      Streams (s₁.setWorker w pc) := by
    refine h.quiet hlog hwritten hmutex fun v => ?_
    rw [setWorker_worker, hworker]
    by_cases hv : v = w
    · subst v
      exact Or.inr ⟨before, by rw [Function.update_self]; exact after⟩
    · exact Or.inl (Function.update_of_ne hv _ _)
  cases st with
  | move e pc node listed before after => exact hquiet s pc before after rfl rfl rfl rfl
  | pop n jobs at_ => exact hquiet _ _ (by rw [at_]; rfl) rfl rfl rfl rfl rfl
  | add n at_ => exact hquiet _ _ (by rw [at_]; rfl) rfl rfl rfl rfl rfl
  | receive n chunk at_ => exact hquiet _ _ (by rw [at_]; rfl) rfl rfl rfl rfl rfl
  | remove n at_ => exact hquiet _ _ (by rw [at_]; rfl) rfl rfl rfl rfl rfl
  | close n at_ => exact hquiet _ _ (by rw [at_]; rfl) rfl rfl rfl rfl rfl
  | lock n msg at_ free => exact h.lock hi.listed free n msg
  | send n msg c rest sent k at_ other => exact h.send hi at_ other
  | interrupted => exact h
  | giveUp r n msg c rest sent at_ error =>
    rcases error with rfl | rfl <;> exact hc.elim
  | advance n msg c rest sent at_ done => exact h.advance hi at_ done
  | unlock n msg sent at_ => exact h.unlock hi.listed at_

theorem main_frame (s : State T) (e : MainEvent) :
    (mainNext s s.main e).log = s.log ∧ (mainNext s s.main e).written = s.written ∧
      (mainNext s s.main e).clientsMutex = s.clientsMutex ∧
      (mainNext s s.main e).worker = s.worker := by
  unfold mainNext
  split <;> exact ⟨rfl, rfl, rfl, rfl⟩

/-! ## Every run -/

structure Orderly (s : State T) : Prop where
  clients : Invariant s
  texts : Texts s
  streams : Streams s

theorem initial_orderly (listenFd : Fd) : Orderly (initial listenFd : State T) := by
  refine ⟨initial_invariant listenFd, ⟨?_, ?_⟩, ⟨?_, ?_, fun x => ⟨[], ?_, ?_, ?_, ?_⟩⟩⟩
  · intro msg hm
    cases hm
  · intro w n msg hw
    cases hw
  · intro w n msg rest sent hw
    cases hw
  · intro w n msg c rest sent hw
    cases hw
  · exact List.Pairwise.nil
  · intro i hi
    cases hi
  · intro w rest hw
    cases hw
  · rfl

theorem step_orderly {s : State T} (h : Orderly s) {e : Event T} (he : Enabled s e)
    (hc : NoSendError s e) : Orderly (next s e) := by
  refine ⟨step_invariant h.clients he, ?_, ?_⟩
  · cases e with
    | signal => exact ⟨h.texts.logged, h.texts.locking⟩
    | signalClose => exact ⟨h.texts.logged, h.texts.locking⟩
    | main e =>
      obtain ⟨hlog, _, _, hworker⟩ := main_frame s e
      exact ⟨hlog ▸ h.texts.logged, hworker ▸ h.texts.locking⟩
    | worker w e => exact h.texts.worker h.clients (worker_step he)
  · cases e with
    | signal => exact h.streams.quiet rfl rfl rfl fun _ => Or.inl rfl
    | signalClose => exact h.streams.quiet rfl rfl rfl fun _ => Or.inl rfl
    | main e =>
      obtain ⟨hlog, hwritten, hmutex, hworker⟩ := main_frame s e
      exact h.streams.quiet hlog hwritten hmutex fun v => Or.inl (congrFun hworker v)
    | worker w e => exact h.streams.worker h.clients (worker_step he) hc

theorem tagged_fst {log : List (List Byte)} {i : ℕ} {p : ℕ × Byte} (h : p ∈ tagged log i) :
    p.1 = i := by
  unfold tagged at h
  split at h
  · cases h
  · obtain ⟨b, _, rfl⟩ := List.mem_map.mp h
    rfl

theorem unfinished_fst {s : State T} {x : Conn} {p : ℕ × Byte} (h : p ∈ unfinished s x) :
    p.1 = s.log.length - 1 := by
  unfold unfinished at h
  split at h
  · cases h
  · unfold underway at h
    split at h
    · split at h
      · obtain ⟨b, _, rfl⟩ := List.mem_map.mp h
        rfl
      · cases h
    · cases h

/-- The places in the log never go down along a stream. -/
theorem Stream.sorted {s : State T} {x : Conn} {ids : List ℕ} (h : Stream s x ids) :
    (sentTo s x).Pairwise (· ≤ ·) := by
  rw [sentTo, List.pairwise_map, h.bytes, List.pairwise_append, List.pairwise_flatMap]
  refine ⟨⟨fun i _ => ?_, ?_⟩, ?_, fun p hp q hq => ?_⟩
  · exact List.pairwise_of_forall_mem_list fun p hp q hq => by
      rw [tagged_fst hp, tagged_fst hq]
  · refine h.increasing.imp fun {i j} hij p hp q hq => ?_
    rw [tagged_fst hp, tagged_fst hq]
    exact hij.le
  · exact List.pairwise_of_forall_mem_list fun p hp q hq => by
      rw [unfinished_fst hp, unfinished_fst hq]
  · obtain ⟨i, hi, hp⟩ := List.mem_flatMap.mp hp
    have := h.logged i hi
    rw [tagged_fst hp, unfinished_fst hq]
    omega

theorem idxOf_lt_iff {l : List ℕ} (h : l.Pairwise (· ≤ ·)) {i j : ℕ} (hi : i ∈ l) (hj : j ∈ l) :
    l.idxOf i < l.idxOf j ↔ i < j := by
  have hlt {a b : ℕ} (ha : a ∈ l) (hb : b ∈ l) (hab : a < b) : l.idxOf a < l.idxOf b := by
    have hla := List.idxOf_lt_length_of_mem ha
    have hlb := List.idxOf_lt_length_of_mem hb
    by_contra hle
    have hsort := List.pairwise_iff_getElem.mp h (l.idxOf b) (l.idxOf a) hlb hla
    have hga : l[l.idxOf a] = a := List.getElem_idxOf hla
    have hgb : l[l.idxOf b] = b := List.getElem_idxOf hlb
    rcases Nat.lt_or_eq_of_le (Nat.le_of_not_lt hle) with hlt | heq
    · have := hsort hlt
      omega
    · have : b = a := by rw [← hga, ← hgb]; simp only [heq]
      omega
  constructor
  · intro hidx
    rcases lt_trichotomy i j with hij | rfl | hij
    · exact hij
    · exact absurd hidx (lt_irrefl _)
    · exact absurd hidx (lt_asymm (hlt hj hi hij))
  · exact hlt hi hj

/-- However sends are cut short or interrupted, each stream is a sequence of whole messages,
the last one possibly still under way, and any two streams agree on the order. -/
theorem whole_messages (T : ℕ) (listenFd : Fd) (es : List (Event T))
    (h : (machine T listenFd).Valid es) (hc : (machine T listenFd).Along NoSendError es) :
    WholeMessages ((machine T listenFd).run es) := by
  have ho := Machine.invariant_along (I := Orderly) (initial_orderly listenFd)
    (fun _ _ hs he hc => step_orderly hs he hc) h hc
  refine ⟨ho.texts.logged, fun x => ?_, fun x y i j hix hjx hiy hjy => ?_⟩
  · obtain ⟨ids, hs⟩ := ho.streams.stream x
    exact ⟨ids, hs.increasing, hs.logged, hs.bytes⟩
  · obtain ⟨_, hx⟩ := ho.streams.stream x
    obtain ⟨_, hy⟩ := ho.streams.stream y
    rw [idxOf_lt_iff hx.sorted hix hjx, idxOf_lt_iff hy.sorted hiy hjy]

/-- A message that takes two sends and an interrupted one to reach the other client. -/
theorem whole_messages_short_write :
    let es : List (Event 2) := [.main .test, .main (.accept 4), .main .push, .main .test,
      .main (.accept 5), .main .push, .worker 0 .test, .worker 0 .pop, .worker 0 .add,
      .worker 0 .test, .worker 1 .test, .worker 1 .pop, .worker 1 .add,
      .worker 0 (.recv (.data (ascii "hi"))), .worker 0 .lock, .worker 0 (.send (.accepted 2)),
      .worker 0 (.send .interrupted), .worker 0 (.send (.accepted 4)), .worker 0 .advance,
      .worker 0 .advance, .worker 0 .unlock]
    WholeMessages ((machine 2 3).run es) ∧
      (((machine 2 3).run es).written 1).map Prod.snd = ascii "[4] hi" :=
  ⟨whole_messages 2 3 _ (by decide) (by decide), by decide⟩

end ThreadPoolBroadcast
