import LinuxLabs.Execution
import LinuxLabs.LinkedList
import Mathlib.Data.Fin.Basic
import Mathlib.Logic.Function.Basic

/-! # The job queue of the thread-pool chat server (lab 15)
The statements of `jobq_push`, `jobq_pop` and `jobq_close` one by one, on linked nodes in a
heap whose cells are reused. A waiting worker may be woken by a signal, by `jobq_close` or
for no reason, and competes for the mutex then. -/
namespace ThreadPoolQueue

open Execution LinkedList

abbrev Fd := ℕ
abbrev Addr := ℕ

/-- `job_t`. -/
structure Job where
  clientFd : Fd
  next : Option Addr
  deriving DecidableEq

/-- A run of `handle_signal` is a thread of its own. -/
inductive Thread (T : ℕ) where
  | main
  | worker (w : Fin T)
  | handler (k : ℕ)
  deriving DecidableEq

/-- `a` is what `malloc` returns in `jobq_push`. -/
inductive Call where
  | push (fd : Fd) (a : Addr)
  | pop
  | close
  deriving DecidableEq

/-- A thread's next statement. The descriptor beside an unlinked node is history until the
thread has read it from the node. -/
inductive Pc where
  | idle
  | exited
  | pushLock (fd : Fd) (a : Addr)
  | pushLink (fd : Fd) (a : Addr)
  | pushTail (a : Addr)
  | pushSignal
  | pushUnlock
  | popLock
  | popTest
  | popWait
  | popWake
  | popDecide
  | popUnlink (a : Addr)
  | popTail (a : Addr) (fd : Fd)
  | popUnlock (a : Addr) (fd : Fd)
  | popRead (a : Addr) (fd : Fd)
  | popFree (a : Addr) (fd : Fd)
  | popFail
  | closeLock
  | closeSet
  | closeBroadcast
  | closeUnlock
  deriving DecidableEq

variable {T : ℕ}

/-- `pushed`, `taken` and `returned` are history: the descriptors in the order in which they
were linked in, those unlinked with the worker that did it, and those its pop returned. -/
structure State (T : ℕ) where
  heap : Addr → Option Job
  head : Option Addr
  tail : Option Addr
  closed : Bool
  mutex : Option (Thread T)
  pc : Thread T → Pc
  pushed : List Fd
  taken : List (Thread T × Fd)
  returned : List (Thread T × Fd)

def initial : State T where
  heap := fun _ => none
  head := none
  tail := none
  closed := false
  mutex := none
  pc := fun _ => .idle
  pushed := []
  taken := []
  returned := []

/-- `signal` is the `pthread_cond_signal` of `jobq_push`, with the worker it wakes; `wake` is
a spurious wakeup. -/
inductive Event (T : ℕ) where
  | call (t : Thread T) (c : Call)
  | step (t : Thread T)
  | signal (woken : Option (Fin T))
  | wake (w : Fin T)
  deriving DecidableEq

namespace State

variable (s : State T)

def setPc (t : Thread T) (pc : Pc) : State T := { s with pc := Function.update s.pc t pc }

def lock (t : Thread T) : State T := { s with mutex := some t }

def unlock : State T := { s with mutex := none }

def link (a : Addr) : Option Addr := (s.heap a).bind Job.next

def fdAt (a : Addr) : Option Fd := (s.heap a).map Job.clientFd

end State

/-- Where `jobq_push` puts the new node, and what `jobq_pop` does if it got the last one. -/
def linkIn (s : State T) (a : Addr) : State T :=
  match s.tail with
  | some b =>
    { s with heap := Function.update s.heap b ((s.heap b).map fun j => { j with next := some a }) }
  | none => { s with head := some a }

def cutTail (s : State T) : State T := if s.head = none then { s with tail := none } else s

def Call.start : Call → Pc
  | .push fd a => .pushLock fd a
  | .pop => .popLock
  | .close => .closeLock

def Thread.Makes : Thread T → Call → Prop
  | .main, .push _ _ | .main, .close | .worker _, .pop | .handler _, .close => True
  | _, _ => False

/-- The thread can go on by itself. -/
def Pc.Runs (mutex : Option (Thread T)) : Pc → Prop
  | .idle | .exited | .popWait | .pushSignal => False
  | .pushLock _ _ | .popLock | .popWake | .closeLock => mutex = none
  | _ => True

/-- `malloc` succeeds with a free cell, and a signal wakes a worker if one waits. -/
def Enabled (s : State T) : Event T → Prop
  | .call t c => s.pc t = .idle ∧ t.Makes c ∧
    match c with
    | .push _ a => s.heap a = none
    | _ => True
  | .step t => (s.pc t).Runs s.mutex
  | .signal woken => s.pc .main = .pushSignal ∧
    match woken with
    | some w => s.pc (.worker w) = .popWait
    | none => ∀ w, s.pc (.worker w) ≠ .popWait
  | .wake w => s.pc (.worker w) = .popWait

/-- Where a null or dangling pointer would be followed the state stays as it is. -/
def stepNext (s : State T) (t : Thread T) : Pc → State T
  | .pushLock fd a => (s.lock t).setPc t (.pushLink fd a)
  | .pushLink fd a => (linkIn { s with pushed := s.pushed ++ [fd] } a).setPc t (.pushTail a)
  | .pushTail a => { s with tail := some a }.setPc t .pushSignal
  | .pushUnlock => s.unlock.setPc t .idle
  | .popLock | .popWake => (s.lock t).setPc t .popTest
  | .popTest =>
    if s.head = none ∧ s.closed = false then s.unlock.setPc t .popWait else s.setPc t .popDecide
  | .popDecide =>
    if s.head = none ∧ s.closed = true then s.setPc t .popFail
    else match s.head with
      | some a => s.setPc t (.popUnlink a)
      | none => s
  | .popUnlink a =>
    match s.heap a with
    | some j =>
      { s with head := j.next, taken := s.taken ++ [(t, j.clientFd)] }.setPc t
        (.popTail a j.clientFd)
    | none => s
  | .popTail a fd => (cutTail s).setPc t (.popUnlock a fd)
  | .popUnlock a fd => s.unlock.setPc t (.popRead a fd)
  | .popRead a _ =>
    match s.heap a with
    | some j => s.setPc t (.popFree a j.clientFd)
    | none => s
  | .popFree a fd =>
    { s with heap := Function.update s.heap a none, returned := s.returned ++ [(t, fd)] }.setPc t
      .idle
  | .popFail => s.unlock.setPc t .exited
  | .closeLock => (s.lock t).setPc t .closeSet
  | .closeSet => { s with closed := true }.setPc t .closeBroadcast
  | .closeBroadcast =>
    { s with pc := fun u => if s.pc u = Pc.popWait then Pc.popWake else s.pc u }.setPc t
      .closeUnlock
  | .closeUnlock => s.unlock.setPc t .idle
  | .idle | .exited | .popWait | .pushSignal => s

def next (s : State T) : Event T → State T
  | .call t c =>
    match c with
    | .push fd a =>
      { s with heap := Function.update s.heap a (some ⟨fd, none⟩) }.setPc t (.pushLock fd a)
    | .pop | .close => s.setPc t c.start
  | .step t => stepNext s t (s.pc t)
  | .signal woken =>
    match woken with
    | some w => (s.setPc (.worker w) .popWake).setPc .main .pushUnlock
    | none => s.setPc .main .pushUnlock
  | .wake w => s.setPc (.worker w) .popWake

def machine (T : ℕ) : Machine (State T) (Event T) := ⟨initial, Enabled, next⟩

instance (t : Thread T) (c : Call) : Decidable (t.Makes c) := by
  unfold Thread.Makes
  split <;> infer_instance

instance (mutex : Option (Thread T)) (pc : Pc) : Decidable (pc.Runs mutex) := by
  cases pc <;> simp only [Pc.Runs] <;> infer_instance

instance (s : State T) (e : Event T) : Decidable (Enabled s e) := by
  cases e with
  | call t c => cases c <;> simp only [Enabled] <;> infer_instance
  | step t => exact inferInstanceAs (Decidable ((s.pc t).Runs s.mutex))
  | signal woken => cases woken <;> simp only [Enabled] <;> infer_instance
  | wake w => exact inferInstanceAs (Decidable (_ = _))

instance (s : State T) (e : Event T) : Decidable ((machine T).Enabled s e) :=
  inferInstanceAs (Decidable (Enabled s e))

/-! ## What a thread has in hand -/

/-- Between the lock and the unlock. -/
def Pc.holds : Pc → Bool
  | .pushLink _ _ | .pushTail _ | .pushSignal | .pushUnlock | .popTest | .popDecide
  | .popUnlink _ | .popTail _ _ | .popUnlock _ _ | .popFail
  | .closeSet | .closeBroadcast | .closeUnlock => true
  | .idle | .exited | .pushLock _ _ | .popLock | .popWait | .popWake | .popRead _ _
  | .popFree _ _ | .closeLock => false

/-- The node that is the thread's own, with its descriptor. -/
def Pc.job : Pc → Option (Addr × Fd)
  | .pushLock fd a | .pushLink fd a | .popTail a fd | .popUnlock a fd | .popRead a fd
  | .popFree a fd => some (a, fd)
  | _ => none

/-- It is still to be linked in. -/
def Pc.fresh : Pc → Bool
  | .pushLock _ _ | .pushLink _ _ => true
  | _ => false

/-- The descriptor it took and has not yet returned. -/
def Pc.taking (pc : Pc) : List Fd := if pc.fresh then [] else (pc.job.map Prod.snd).toList

/-- Half of an update is done: the new last node is linked in, or the first one is out. -/
inductive Half where
  | linked (a : Addr)
  | unlinked (a : Addr)
  deriving DecidableEq

def Pc.half : Pc → Option Half
  | .pushTail a => some (.linked a)
  | .popTail a _ => some (.unlinked a)
  | _ => none

/-- All that matters to the nodes. -/
def Pc.view (pc : Pc) : Option (Addr × Fd) × Bool × Option Half := (pc.job, pc.fresh, pc.half)

/-- What the queue looks like to a thread that has tested it. -/
def Pc.Sees (head : Option Addr) (closed : Bool) : Pc → Prop
  | .popDecide => head ≠ none ∨ closed = true
  | .popUnlink a => head = some a
  | .popFail => head = none ∧ closed = true
  | _ => True

/-! ## What a step changes -/

@[simp] theorem linkIn_pc (s : State T) (a : Addr) : (linkIn s a).pc = s.pc := by
  unfold linkIn
  split <;> rfl

@[simp] theorem linkIn_mutex (s : State T) (a : Addr) : (linkIn s a).mutex = s.mutex := by
  unfold linkIn
  split <;> rfl

/-- `cutTail` changes nothing but `tail`. -/
theorem cutTail_eq (s : State T) : ∃ tl, cutTail s = { s with tail := tl } := by
  unfold cutTail
  split
  · exact ⟨none, rfl⟩
  · exact ⟨s.tail, rfl⟩

/-- A `move` is of no concern to the nodes; the other steps are the stores of the three
functions one by one, and `stuck` is one through a bad pointer. -/
inductive Turn (s : State T) : State T → Prop
  | move (t : Thread T) (p : Pc) (holds : p.holds = (s.pc t).holds) (view : p.view = (s.pc t).view)
      (sees : p.Sees s.head s.closed) : Turn s (s.setPc t p)
  | acquire (t : Thread T) (p : Pc) (mutex : s.mutex = none) (holds : p.holds = true)
      (view : p.view = (s.pc t).view) (sees : p.Sees s.head s.closed) :
      Turn s ((s.lock t).setPc t p)
  | release (t : Thread T) (p : Pc) (owner : (s.pc t).holds = true) (holds : p.holds = false)
      (view : p.view = (s.pc t).view) : Turn s (s.unlock.setPc t p)
  | close (t : Thread T) (pos : s.pc t = .closeSet) :
      Turn s ({ s with closed := true }.setPc t .closeBroadcast)
  | broadcast (t : Thread T) (pos : s.pc t = .closeBroadcast) :
      Turn s ({ s with pc := fun u => if s.pc u = Pc.popWait then Pc.popWake else s.pc u }.setPc t
        .closeUnlock)
  | malloc (t : Thread T) (fd : Fd) (a : Addr) (pos : s.pc t = .idle) (cell : s.heap a = none) :
      Turn s ({ s with heap := Function.update s.heap a (some ⟨fd, none⟩) }.setPc t
        (.pushLock fd a))
  | link (t : Thread T) (fd : Fd) (a : Addr) (pos : s.pc t = .pushLink fd a) :
      Turn s ((linkIn { s with pushed := s.pushed ++ [fd] } a).setPc t (.pushTail a))
  | last (t : Thread T) (a : Addr) (pos : s.pc t = .pushTail a) :
      Turn s ({ s with tail := some a }.setPc t .pushSignal)
  | unlink (t : Thread T) (a : Addr) (j : Job) (pos : s.pc t = .popUnlink a)
      (cell : s.heap a = some j) :
      Turn s ({ s with head := j.next, taken := s.taken ++ [(t, j.clientFd)] }.setPc t
        (.popTail a j.clientFd))
  | cut (t : Thread T) (a : Addr) (fd : Fd) (pos : s.pc t = .popTail a fd) :
      Turn s ((cutTail s).setPc t (.popUnlock a fd))
  | read (t : Thread T) (a : Addr) (fd : Fd) (j : Job) (pos : s.pc t = .popRead a fd)
      (cell : s.heap a = some j) : Turn s (s.setPc t (.popFree a j.clientFd))
  | free (t : Thread T) (a : Addr) (fd : Fd) (pos : s.pc t = .popFree a fd) :
      Turn s ({ s with
        heap := Function.update s.heap a none, returned := s.returned ++ [(t, fd)] }.setPc t .idle)
  | stuck : Turn s s

theorem step_turn {s : State T} {t : Thread T} (he : (s.pc t).Runs s.mutex) :
    Turn s (stepNext s t (s.pc t)) := by
  cases hpc : s.pc t with
  | idle | exited | popWait | pushSignal => exact .stuck
  | pushLock | popLock | popWake | closeLock =>
    rw [hpc] at he
    exact .acquire t _ he rfl (by rw [hpc]; rfl) trivial
  | pushUnlock | popUnlock | popFail | closeUnlock =>
    exact .release t _ (by rw [hpc]; rfl) rfl (by rw [hpc]; rfl)
  | pushLink fd a => exact .link t fd a hpc
  | pushTail a => exact .last t a hpc
  | popTest =>
    simp only [stepNext]
    split
    · exact .release t _ (by rw [hpc]; rfl) rfl (by rw [hpc]; rfl)
    · next hq =>
      rw [not_and_or, Bool.not_eq_false] at hq
      exact .move t _ (by rw [hpc]; rfl) (by rw [hpc]; rfl) hq
  | popDecide =>
    simp only [stepNext]
    split
    · next hq => exact .move t _ (by rw [hpc]; rfl) (by rw [hpc]; rfl) hq
    · split
      · next a ha => exact .move t _ (by rw [hpc]; rfl) (by rw [hpc]; rfl) ha
      · exact .stuck
  | popUnlink a =>
    simp only [stepNext]
    split
    · next j hj => exact .unlink t a j hpc hj
    · exact .stuck
  | popTail a fd => exact .cut t a fd hpc
  | popRead a fd =>
    simp only [stepNext]
    split
    · next j hj => exact .read t a fd j hpc hj
    · exact .stuck
  | popFree a fd => exact .free t a fd hpc
  | closeSet => exact .close t hpc
  | closeBroadcast => exact .broadcast t hpc

/-- Every event is one such step, but a signal wakes its worker first. -/
theorem next_turn {s : State T} {e : Event T} (he : Enabled s e) :
    ∃ m, Turn s m ∧ Turn m (next s e) := by
  cases e with
  | step t => exact ⟨s, .stuck, step_turn he⟩
  | call t c =>
    refine ⟨s, .stuck, ?_⟩
    cases c with
    | push fd a => exact .malloc t fd a he.1 he.2.2
    | pop | close => exact .move t _ (by rw [he.1]; rfl) (by rw [he.1]; rfl) trivial
  | wake w =>
    have hw : s.pc (.worker w) = .popWait := he
    exact ⟨s, .stuck, .move _ _ (by rw [hw]; rfl) (by rw [hw]; rfl) trivial⟩
  | signal woken =>
    obtain ⟨hmain, hw⟩ := he
    cases woken with
    | none => exact ⟨s, .stuck, .move _ _ (by rw [hmain]; rfl) (by rw [hmain]; rfl) trivial⟩
    | some w =>
      have hstill : (s.setPc (.worker w) .popWake).pc .main = .pushSignal :=
        (Function.update_of_ne (by simp : Thread.main ≠ .worker w) Pc.popWake s.pc).trans hmain
      exact ⟨s.setPc (.worker w) .popWake, .move _ _ (by rw [hw]; rfl) (by rw [hw]; rfl) trivial,
        .move _ _ (by rw [hstill]; rfl) (by rw [hstill]; rfl) trivial⟩

end ThreadPoolQueue
