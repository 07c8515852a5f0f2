import LinuxLabs.Execution
import LinuxLabs.CString
import Mathlib.Algebra.Group.Nat.Defs
import Mathlib.Data.Fin.Basic
import Mathlib.Logic.Function.Basic
import Mathlib.Tactic.Common

/-! # The thread-pool chat server (lab 15)
The main thread accepts and queues; `T` workers serve one client each. A step runs to the
next point where another thread's step can matter; a section that a mutex protects and
that does not block is one step, and `broadcast_message`, which blocks in `send` while it
holds `clients_mutex`, is many. Connection numbers, `log` and the tags in `written` are
history: no thread reads them. -/
namespace ThreadPoolServer

open Execution CString

abbrev Fd := ℕ
abbrev Conn := ℕ

def bufSize : ℕ := 1024
def outSize : ℕ := bufSize + 64

/-- Descriptors are C `int`s. -/
def intMax : ℕ := 2 ^ 31 - 1

/-- What the kernel has behind an open descriptor. -/
inductive Socket where
  | listener
  | connection (c : Conn)
  deriving DecidableEq

/-- A `job_t` or a `client_t`, with the connection its descriptor was accepted for. -/
structure Node where
  fd : Fd
  conn : Conn
  deriving DecidableEq

inductive MainPc where
  | testing
  | accepting
  | pushing (n : Node)
  | closingListener
  | closingQueue
  | joining
  | sweeping
  | exited
  deriving DecidableEq

/-- `broadcasting n msg rest sent`: in `broadcast_message` for the client `n`, holding the
mutex, with the list from the cursor on and the bytes `send_all` has sent to its head. -/
inductive WorkerPc where
  | top
  | popping
  | adding (n : Node)
  | serving (n : Node)
  | receiving (n : Node)
  | locking (n : Node) (msg : List Byte)
  | broadcasting (n : Node) (msg : List Byte) (rest : List Node) (sent : ℕ)
  | removing (n : Node)
  | closing (n : Node)
  | exited
  deriving DecidableEq

/-- The connection behind the worker's `client_fd`. -/
def WorkerPc.node : WorkerPc → Option Node
  | .top | .popping | .exited => none
  | .adding n | .serving n | .receiving n | .locking n _ | .broadcasting n _ _ _
  | .removing n | .closing n => some n

/-- The node the worker has put on the client list and not yet taken off. -/
def WorkerPc.listed : WorkerPc → Option Node
  | .top | .popping | .exited | .adding _ | .closing _ => none
  | .serving n | .receiving n | .locking n _ | .broadcasting n _ _ _ | .removing n => some n

def WorkerPc.cursor : WorkerPc → Option (List Node)
  | .broadcasting _ _ rest _ => some rest
  | .top | .popping | .adding _ | .serving _ | .receiving _ | .locking _ _ | .removing _
  | .closing _ | .exited => none

/-- `written c` is the byte stream sent to a connection, each byte with the place in `log`
of the message it belongs to; `log` has the messages in the order their broadcasts began. -/
structure State (T : ℕ) where
  running : Bool
  listenFd : Fd
  sockets : Fd → Option Socket
  jobs : List Node
  closed : Bool
  clients : List Node
  clientsMutex : Option (Fin T)
  main : MainPc
  worker : Fin T → WorkerPc
  accepted : ℕ
  log : List (List Byte)
  written : Conn → List (ℕ × Byte)

variable {T : ℕ}

def initial (listenFd : Fd) : State T where
  running := true
  listenFd := listenFd
  sockets := Function.update (fun _ => none) listenFd (some .listener)
  jobs := []
  closed := false
  clients := []
  clientsMutex := none
  main := .testing
  worker := fun _ => .top
  accepted := 0
  log := []
  written := fun _ => []

/-- `snprintf(out, sizeof(out), "[%d] ", client_fd)`. -/
def tag (fd : Fd) : List Byte := snprintf outSize (ascii "[" ++ decimal fd ++ ascii "] ")

/-- The message `worker_main` builds from what `recv` returned. -/
def message (fd : Fd) (chunk : List Byte) : List Byte :=
  tag fd ++ chunk.take (outSize - (tag fd).length)

inductive RecvResult where
  | data (chunk : List Byte)
  | hangup
  | retry
  | error
  deriving DecidableEq

inductive SendResult where
  | accepted (k : ℕ)
  | interrupted
  | wouldBlock
  | failed
  deriving DecidableEq

inductive WorkerEvent where
  | test
  | pop
  | add
  | recv (r : RecvResult)
  | lock
  | send (r : SendResult)
  | advance
  | unlock
  | remove
  | close
  deriving DecidableEq

inductive MainEvent where
  | test
  | accept (fd : Fd)
  | acceptFailed (interrupted : Bool)
  | push
  | closeListener
  | closeQueue
  | join
  | sweep
  deriving DecidableEq

/-- `signal` and `signalClose` are the two statements of `handle_signal`, on a thread that is
outside of the sections of the job queue. -/
inductive Event (T : ℕ) where
  | signal
  | signalClose
  | main (e : MainEvent)
  | worker (w : Fin T) (e : WorkerEvent)
  deriving DecidableEq

namespace State

variable (s : State T)

def setMain (pc : MainPc) : State T := { s with main := pc }

def setWorker (w : Fin T) (pc : WorkerPc) : State T :=
  { s with worker := Function.update s.worker w pc }

/-- The bytes of message `i` reach whatever connection the descriptor names. -/
def deliver (fd : Fd) (i : ℕ) (bytes : List Byte) : State T :=
  { s with
    written := match s.sockets fd with
      | some (.connection c) => Function.update s.written c (s.written c ++ bytes.map (i, ·))
      | _ => s.written }

def close (fd : Fd) : State T := { s with sockets := Function.update s.sockets fd none }

/-- `remove_client`: the first node with the descriptor goes. -/
def removeClient (fd : Fd) : State T :=
  { s with clients := s.clients.eraseP fun c => c.fd = fd }

end State

def RecvResult.Possible : RecvResult → Prop
  | .data chunk => chunk ≠ [] ∧ chunk.length ≤ bufSize
  | _ => True

/-- On a descriptor that names no connection `send` accepts nothing. -/
def SendResult.Possible (target : Option Socket) (remaining : ℕ) : SendResult → Prop
  | .accepted k => 0 < k ∧ k ≤ remaining ∧ target ≠ none ∧ target ≠ some .listener
  | _ => True

def MainEnabled (s : State T) : MainPc → MainEvent → Prop
  | .testing, .test => True
  | .accepting, .accept fd => fd ≤ intMax ∧ s.sockets fd = none
  | .accepting, .acceptFailed _ => True
  | .pushing _, .push => True
  | .closingListener, .closeListener => True
  | .closingQueue, .closeQueue => True
  | .joining, .join => ∀ w, s.worker w = .exited
  | .sweeping, .sweep => s.clientsMutex = none
  | _, _ => False

def WorkerEnabled (s : State T) : WorkerPc → WorkerEvent → Prop
  | .top, .test => True
  | .popping, .pop => s.jobs ≠ [] ∨ s.closed
  | .adding _, .add => s.clientsMutex = none
  | .serving _, .test => True
  | .receiving _, .recv r => r.Possible
  | .locking _ _, .lock => s.clientsMutex = none
  | .broadcasting n msg (c :: _) sent, .send r =>
    c.fd ≠ n.fd ∧ sent < msg.length ∧ r.Possible (s.sockets c.fd) (msg.length - sent)
  | .broadcasting n msg (c :: _) sent, .advance => c.fd = n.fd ∨ sent = msg.length
  | .broadcasting _ _ [] _, .unlock => True
  | .removing _, .remove => s.clientsMutex = none
  | .closing _, .close => True
  | _, _ => False

def Enabled (s : State T) : Event T → Prop
  | .signal => True
  | .signalClose => s.running = false
  | .main e => MainEnabled s s.main e
  | .worker w e => WorkerEnabled s (s.worker w) e

def mainNext (s : State T) : MainPc → MainEvent → State T
  | .testing, .test => s.setMain (if s.running then .accepting else .closingListener)
  | .accepting, .accept fd =>
    { s with
      sockets := Function.update s.sockets fd (some (.connection s.accepted))
      accepted := s.accepted + 1
      main := .pushing ⟨fd, s.accepted⟩ }
  | .accepting, .acceptFailed interrupted =>
    s.setMain (if interrupted ∨ s.running then .testing else .closingListener)
  | .pushing n, .push => { s with jobs := s.jobs ++ [n], main := .testing }
  | .closingListener, .closeListener => (s.close s.listenFd).setMain .closingQueue
  | .closingQueue, .closeQueue => { s with closed := true, main := .joining }
  | .joining, .join => s.setMain .sweeping
  | .sweeping, .sweep =>
    { s with
      sockets := s.clients.foldl (fun sockets c => Function.update sockets c.fd none) s.sockets
      main := .exited }
  | _, _ => s

def workerNext (s : State T) (w : Fin T) : WorkerPc → WorkerEvent → State T
  | .top, .test => s.setWorker w (if s.running then .popping else .exited)
  | .popping, .pop =>
    match s.jobs with
    | [] => s.setWorker w .exited
    | n :: jobs => { s with jobs := jobs }.setWorker w (.adding n)
  | .adding n, .add => { s with clients := n :: s.clients }.setWorker w (.serving n)
  | .serving n, .test => s.setWorker w (if s.running then .receiving n else .removing n)
  | .receiving n, .recv r =>
    match r with
    | .data chunk => s.setWorker w (.locking n (message n.fd chunk))
    | .retry => s.setWorker w (.serving n)
    | .hangup | .error => s.setWorker w (.removing n)
  | .locking n msg, .lock =>
    { s with clientsMutex := some w, log := s.log ++ [msg] }.setWorker w
      (.broadcasting n msg s.clients 0)
  | .broadcasting n msg (c :: rest) sent, .send r =>
    match r with
    | .accepted k =>
      (s.deliver c.fd (s.log.length - 1) ((msg.drop sent).take k)).setWorker w
        (.broadcasting n msg (c :: rest) (sent + k))
    | .interrupted => s
    | .wouldBlock | .failed => s.setWorker w (.broadcasting n msg rest 0)
  | .broadcasting n msg (_ :: rest) _, .advance => s.setWorker w (.broadcasting n msg rest 0)
  | .broadcasting n _ [] _, .unlock => { s with clientsMutex := none }.setWorker w (.serving n)
  | .removing n, .remove => (s.removeClient n.fd).setWorker w (.closing n)
  | .closing n, .close => (s.close n.fd).setWorker w .top
  | _, _ => s

def next (s : State T) : Event T → State T
  | .signal => { s with running := false }
  | .signalClose => { s with closed := true }
  | .main e => mainNext s s.main e
  | .worker w e => workerNext s w (s.worker w) e

def machine (T : ℕ) (listenFd : Fd) : Machine (State T) (Event T) :=
  ⟨initial listenFd, Enabled, next⟩

instance (r : RecvResult) : Decidable r.Possible := by
  cases r <;> simp only [RecvResult.Possible] <;> infer_instance

instance (target : Option Socket) (remaining : ℕ) (r : SendResult) :
    Decidable (r.Possible target remaining) := by
  cases r <;> simp only [SendResult.Possible] <;> infer_instance

instance (s : State T) (pc : MainPc) (e : MainEvent) : Decidable (MainEnabled s pc e) := by
  unfold MainEnabled
  split <;> infer_instance

instance (s : State T) (pc : WorkerPc) (e : WorkerEvent) : Decidable (WorkerEnabled s pc e) := by
  unfold WorkerEnabled
  split <;> infer_instance

instance (s : State T) (e : Event T) : Decidable (Enabled s e) := by
  cases e <;> simp only [Enabled] <;> infer_instance

instance (listenFd : Fd) (s : State T) (e : Event T) :
    Decidable ((machine T listenFd).Enabled s e) := inferInstanceAs (Decidable (Enabled s e))

/-! ## What a step changes -/

@[simp] theorem setWorker_worker (s : State T) (w : Fin T) (pc : WorkerPc) :
    (s.setWorker w pc).worker = Function.update s.worker w pc := rfl

theorem setWorker_self {s : State T} {w : Fin T} {pc : WorkerPc} (h : s.worker w = pc) :
    s.setWorker w pc = s := by
  subst h
  simp [State.setWorker]

/-- What a worker's step does to the state; in a `move` only its own position changes, and
neither its connection nor what it has on the list or has locked. -/
inductive WorkerStep (s : State T) (w : Fin T) : WorkerEvent → State T → Prop
  | move (e : WorkerEvent) (pc : WorkerPc) (node : pc.node = (s.worker w).node)
      (listed : pc.listed = (s.worker w).listed) (before : (s.worker w).cursor = none)
      (after : pc.cursor = none) (text : ∀ n msg, pc ≠ .locking n msg)
      (alive : s.worker w ≠ .exited) : WorkerStep s w e (s.setWorker w pc)
  | pop (n : Node) (jobs : List Node) (at_ : s.worker w = .popping) (queue : s.jobs = n :: jobs) :
      WorkerStep s w .pop ({ s with jobs := jobs }.setWorker w (.adding n))
  | add (n : Node) (at_ : s.worker w = .adding n) (free : s.clientsMutex = none) :
      WorkerStep s w .add ({ s with clients := n :: s.clients }.setWorker w (.serving n))
  | receive (n : Node) (chunk : List Byte) (at_ : s.worker w = .receiving n)
      (possible : (RecvResult.data chunk).Possible) :
      WorkerStep s w (.recv (.data chunk)) (s.setWorker w (.locking n (message n.fd chunk)))
  | lock (n : Node) (msg : List Byte) (at_ : s.worker w = .locking n msg)
      (free : s.clientsMutex = none) :
      WorkerStep s w .lock ({ s with clientsMutex := some w, log := s.log ++ [msg] }.setWorker w
        (.broadcasting n msg s.clients 0))
  | send (n : Node) (msg : List Byte) (c : Node) (rest : List Node) (sent k : ℕ)
      (at_ : s.worker w = .broadcasting n msg (c :: rest) sent) (other : c.fd ≠ n.fd)
      (fits : sent + k ≤ msg.length) :
      WorkerStep s w (.send (.accepted k))
        ((s.deliver c.fd (s.log.length - 1) ((msg.drop sent).take k)).setWorker w
          (.broadcasting n msg (c :: rest) (sent + k)))
  | interrupted : WorkerStep s w (.send .interrupted) s
  | giveUp (r : SendResult) (n : Node) (msg : List Byte) (c : Node) (rest : List Node) (sent : ℕ)
      (at_ : s.worker w = .broadcasting n msg (c :: rest) sent)
      (error : r = .wouldBlock ∨ r = .failed) :
      WorkerStep s w (.send r) (s.setWorker w (.broadcasting n msg rest 0))
  | advance (n : Node) (msg : List Byte) (c : Node) (rest : List Node) (sent : ℕ)
      (at_ : s.worker w = .broadcasting n msg (c :: rest) sent)
      (done : c.fd = n.fd ∨ sent = msg.length) :
      WorkerStep s w .advance (s.setWorker w (.broadcasting n msg rest 0))
  | unlock (n : Node) (msg : List Byte) (sent : ℕ)
      (at_ : s.worker w = .broadcasting n msg [] sent) :
      WorkerStep s w .unlock ({ s with clientsMutex := none }.setWorker w (.serving n))
  | remove (n : Node) (at_ : s.worker w = .removing n) (free : s.clientsMutex = none) :
      WorkerStep s w .remove ((s.removeClient n.fd).setWorker w (.closing n))
  | close (n : Node) (at_ : s.worker w = .closing n) :
      WorkerStep s w .close ((s.close n.fd).setWorker w .top)

theorem worker_step {s : State T} {w : Fin T} {e : WorkerEvent}
    (h : Enabled s (.worker w e)) : WorkerStep s w e (next s (.worker w e)) := by
  simp only [Enabled] at h
  simp only [next]
  generalize hpc : s.worker w = pc at h
  have hmove (e : WorkerEvent) (pc' : WorkerPc) (hn : pc'.node = pc.node)
      (hl : pc'.listed = pc.listed) (hb : pc.cursor = none) (ha : pc'.cursor = none)
      (ht : ∀ n msg, pc' ≠ .locking n msg) (hx : pc ≠ .exited) :
      WorkerStep s w e (s.setWorker w pc') := by
    subst hpc
    exact .move e pc' hn hl hb ha ht hx
  unfold WorkerEnabled at h
  split at h
  · simp only [workerNext]
    split <;> exact hmove _ _ rfl rfl rfl rfl (by simp) (by simp)
  · simp only [workerNext]
    split
    · exact hmove _ _ rfl rfl rfl rfl (by simp) (by simp)
    · next n jobs hj => exact .pop n jobs hpc hj
  · exact .add _ hpc h
  · simp only [workerNext]
    split <;> exact hmove _ _ rfl rfl rfl rfl (by simp) (by simp)
  · next n r =>
    cases r with
    | data chunk => exact .receive n chunk hpc h
    | hangup | retry | error => exact hmove _ _ rfl rfl rfl rfl (by simp) (by simp)
  · exact .lock _ _ hpc h
  · next n msg c rest sent r =>
    obtain ⟨other, hlt, hr⟩ := h
    cases r with
    | accepted k =>
      obtain ⟨_, hk, _⟩ := hr
      exact .send n msg c rest sent k hpc other (by omega)
    | interrupted => exact .interrupted
    | wouldBlock => exact .giveUp _ n msg c rest sent hpc (Or.inl rfl)
    | failed => exact .giveUp _ n msg c rest sent hpc (Or.inr rfl)
  · exact .advance _ _ _ _ _ hpc h
  · exact .unlock _ _ _ hpc
  · exact .remove _ hpc h
  · exact .close _ hpc
  · exact h.elim

end ThreadPoolServer
