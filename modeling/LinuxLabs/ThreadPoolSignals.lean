import LinuxLabs.ThreadPoolHandoff

/-! # Signals in the thread-pool chat server (lab 15)
A signal interrupts the main thread or a worker between two of its statements; the thread
goes on only when `handle_signal` has returned, and `handle_signal` takes the mutex of the
job queue. A handler is interrupted by the other signal in turn. The source defines
`_POSIX_C_SOURCE` alone, so with glibc its `signal` is System V's: a handler is installed for
one delivery, and the next signal of the kind ends the process. Where `signal` is BSD's, the
handler stays and its signal is blocked on the thread while it runs. -/
namespace ThreadPoolSignals

open Execution Mutex ThreadPoolQueue ThreadPoolHandoff

inductive Signal where
  | sigint
  | sigterm
  deriving DecidableEq

/-- Before `running = 0`, before the call of `jobq_close`, and from that call on. -/
inductive Stage where
  | store
  | call
  | closing
  deriving DecidableEq

/-- A run of `handle_signal` on a thread's stack; its `jobq_close` is the queue's
`Thread.handler run`. -/
structure Frame where
  run : ℕ
  signal : Signal
  stage : Stage
  deriving DecidableEq

/-- Where a thread is in its loop: at the test of `running`, after it, back from the queue
call in the body, after the loop, and past the `jobq_close` that follows it in `main`. -/
inductive Site where
  | testing
  | inside
  | after
  | leaving
  | over
  deriving DecidableEq

variable {T : ℕ}

/-- Signals interrupt the threads that were created; what they run is on their stacks. -/
def Hosts : Thread T → Prop
  | .main | .worker _ => True
  | .handler _ => False

/-- `frames` has the innermost handler first. `oneShot` is System V's `signal`, `caught` tells
for which signals `handle_signal` is installed, and `killed` that one came without it. -/
structure State (T : ℕ) where
  oneShot : Bool
  caught : Signal → Bool
  killed : Bool
  queue : ThreadPoolQueue.State T
  running : Bool
  site : Thread T → Site
  frames : Thread T → List Frame
  delivered : ℕ

def initial (oneShot : Bool) : State T where
  oneShot := oneShot
  caught := fun _ => true
  killed := false
  queue := ThreadPoolQueue.initial
  running := true
  site := fun _ => .testing
  frames := fun _ => []
  delivered := 0

/-- `kill` is the default action of a signal; `store`, `close` and `ret` are the handler's
`running = 0`, its call of `jobq_close` and its return; `call` is the thread's own; `resume` ends
the loop body, for `main` also when `accept` failed, and `quit` is `main`'s `break`. -/
inductive Event (T : ℕ) where
  | deliver (t : Thread T) (sig : Signal)
  | kill (sig : Signal)
  | store (t : Thread T)
  | close (t : Thread T)
  | ret (t : Thread T)
  | test (t : Thread T)
  | resume (t : Thread T)
  | quit
  | call (t : Thread T) (c : Call)
  | step (t : Thread T)
  | signal (woken : Option (Fin T))
  | wake (w : Fin T)
  deriving DecidableEq

namespace State

variable (s : State T) (t : Thread T)

/-- What runs on the thread's stack, the innermost first. -/
def contexts : List (Thread T) := (s.frames t).map (fun f => .handler f.run) ++ [t]

/-- What the thread executes now. -/
def top : Thread T :=
  match s.frames t with
  | [] => t
  | f :: _ => .handler f.run

/-- The thread executes its own code, outside the queue. -/
def Free : Prop := s.frames t = [] ∧ s.queue.pc t = .idle

def Alive : Prop := Hosts t ∧ (t = .main ∨ s.site t ≠ .leaving ∧ s.queue.pc t ≠ .exited)

def setStage (g : Stage) : Thread T → List Frame :=
  match s.frames t with
  | [] => s.frames
  | f :: rest => Function.update s.frames t ({ f with stage := g } :: rest)

end State

/-- Where the loop makes the call, and where it is when it has. -/
def callSite : Call → Site
  | .push _ _ | .pop => .inside
  | .close => .leaving

def siteAfter : Call → Site
  | .push _ _ | .pop => .after
  | .close => .over

/-- The statement of the queue's code that the event executes. -/
def queueEvent (s : State T) : Event T → Option (ThreadPoolQueue.Event T)
  | .close t => some (.call (s.top t) .close)
  | .call t c => some (.call t c)
  | .step t => some (.step (s.top t))
  | .signal woken => some (.signal woken)
  | .wake w => some (.wake w)
  | _ => none

def Allowed (s : State T) : Event T → Prop
  | .deliver t sig => s.Alive t ∧ s.caught sig = true ∧
    (s.oneShot = true ∨ sig ∉ (s.frames t).map Frame.signal)
  | .kill sig => s.caught sig = false
  | .store t => ((s.frames t).head?.map Frame.stage) = some .store
  | .close t => ((s.frames t).head?.map Frame.stage) = some .call
  | .ret t => ((s.frames t).head?.map Frame.stage) = some .closing ∧
    s.queue.pc (s.top t) = .idle
  | .test t => s.Alive t ∧ s.Free t ∧ s.site t = .testing
  | .resume t => s.Free t ∧ (s.site t = .after ∨ t = .main ∧ s.site t = .inside)
  | .quit => s.Free .main ∧ s.site .main = .inside ∧ s.running = false
  | .call t c => Hosts t ∧ s.frames t = [] ∧ s.site t = callSite c
  | .step t => Hosts t
  | .signal _ => s.frames .main = []
  | .wake _ => True

def Enabled (s : State T) (e : Event T) : Prop :=
  Allowed s e ∧ (∀ q ∈ queueEvent s e, ThreadPoolQueue.Enabled s.queue q) ∧ s.killed = false

def framesNext (s : State T) : Event T → Thread T → List Frame
  | .deliver t sig => Function.update s.frames t (⟨s.delivered, sig, .store⟩ :: s.frames t)
  | .store t => s.setStage t .call
  | .close t => s.setStage t .closing
  | .ret t => Function.update s.frames t (s.frames t).tail
  | _ => s.frames

def siteNext (s : State T) : Event T → Thread T → Site
  | .test t => Function.update s.site t (if s.running then .inside else .leaving)
  | .resume t => Function.update s.site t .testing
  | .quit => Function.update s.site .main .leaving
  | .call t c => Function.update s.site t (siteAfter c)
  | _ => s.site

def next (s : State T) (e : Event T) : State T where
  oneShot := s.oneShot
  caught := match e with
    | .deliver _ sig => if s.oneShot then Function.update s.caught sig false else s.caught
    | _ => s.caught
  killed := match e with
    | .kill _ => true
    | _ => s.killed
  queue := (queueEvent s e).elim s.queue (ThreadPoolQueue.next s.queue)
  running := match e with
    | .store _ => false
    | _ => s.running
  site := siteNext s e
  frames := framesNext s e
  delivered := match e with
    | .deliver _ _ => s.delivered + 1
    | _ => s.delivered

def machine (oneShot : Bool) (T : ℕ) : Machine (State T) (Event T) :=
  ⟨initial oneShot, Enabled, next⟩

instance (t : Thread T) : Decidable (Hosts t) := by
  casesm Thread _ <;> simp only [Hosts] <;> infer_instance

instance (s : State T) (t : Thread T) : Decidable (s.Free t) :=
  inferInstanceAs (Decidable (_ ∧ _))

instance (s : State T) (t : Thread T) : Decidable (s.Alive t) :=
  inferInstanceAs (Decidable (_ ∧ _))

instance (s : State T) (e : Event T) : Decidable (Allowed s e) := by
  cases e <;> simp only [Allowed] <;> infer_instance

instance (s : State T) (e : Event T) : Decidable (Enabled s e) :=
  inferInstanceAs (Decidable (_ ∧ _))

instance (oneShot : Bool) (s : State T) (e : Event T) :
    Decidable ((machine oneShot T).Enabled s e) :=
  inferInstanceAs (Decidable (Enabled s e))

/-! ## What is to hold -/

/-- The thread is in a handler that is about to lock the mutex, which the thread holds. -/
def SelfLock (s : State T) (t : Thread T) : Prop :=
  s.frames t ≠ [] ∧ s.queue.pc (s.top t) = .closeLock ∧
    ∃ u ∈ s.contexts t, s.queue.mutex = some u

def delivers : Event T → Bool
  | .deliver _ _ | .kill _ => true
  | _ => false

/-- The statements of the code alone, in some order, lead to the return of all handlers on
the thread's stack. -/
def Completes (s : State T) (t : Thread T) : Prop :=
  ∃ es, (∀ e ∈ es, delivers e = false) ∧ (machine s.oneShot T).AlongFrom Enabled s es ∧
    ((machine s.oneShot T).runFrom s es).frames t = []

def SignalSafe (s : State T) : Prop := (∀ t, ¬ SelfLock s t) ∧ ∀ t, Completes s t

/-- No handler runs. -/
def Quiet (s : State T) : Prop := s.frames .main = [] ∧ ∀ w, s.frames (.worker w) = []

/-- The signal does not interrupt the owner of the mutex, and ends the process only while no
handler runs. -/
def Clear (s : State T) : Event T → Prop
  | .deliver t _ => ∀ u ∈ s.contexts t, s.queue.mutex ≠ some u
  | .kill _ => Quiet s
  | _ => True

instance (s : State T) : Decidable (Quiet s) := inferInstanceAs (Decidable (_ ∧ _))

instance (s : State T) (e : Event T) : Decidable (Clear s e) := by
  cases e <;> simp only [Clear] <;> infer_instance

/-! ## One statement of the queue's code -/

section Queue

variable {q : ThreadPoolQueue.State T} {e : ThreadPoolQueue.Event T}

def actor : ThreadPoolQueue.Event T → Thread T
  | .call t _ | .step t => t
  | .signal _ => .main
  | .wake w => .worker w

/-- The mutex changes hands only through the thread that acts. -/
inductive MutexTurn (a : Thread T) : Option (Thread T) → Option (Thread T) → Prop
  | keep (m : Option (Thread T)) : MutexTurn a m m
  | acquire : MutexTurn a none (some a)
  | release : MutexTurn a (some a) none

theorem stepNext_mutex (hs : Sound q) {t : Thread T} (he : (q.pc t).Runs q.mutex) :
    MutexTurn t q.mutex (stepNext q t (q.pc t)).mutex := by
  have hrelease (h : (q.pc t).holds = true) : MutexTurn t q.mutex none := by
    rw [(hs.exclusive t).mpr h]
    exact .release
  cases hpc : q.pc t with
  | idle | exited | popWait | pushSignal => exact .keep _
  | pushLock | popLock | popWake | closeLock =>
    rw [hpc] at he
    have hfree : q.mutex = none := he
    rw [hfree]
    exact .acquire
  | pushUnlock | popUnlock | popFail | closeUnlock => exact hrelease (by rw [hpc]; rfl)
  | pushLink fd a =>
    change MutexTurn t q.mutex (linkIn { q with pushed := q.pushed ++ [fd] } a).mutex
    rw [linkIn_mutex]
    exact .keep _
  | pushTail | closeSet | closeBroadcast | popFree => exact .keep _
  | popTest =>
    simp only [stepNext]
    split
    · exact hrelease (by rw [hpc]; rfl)
    · exact .keep _
  | popDecide =>
    simp only [stepNext]
    split
    · exact .keep _
    · split <;> exact .keep _
  | popUnlink a | popRead a _ =>
    simp only [stepNext]
    split <;> exact .keep _
  | popTail a fd =>
    obtain ⟨tl, hcut⟩ := cutTail_eq q
    simp only [stepNext]
    rw [hcut]
    exact .keep _

theorem next_mutex (hs : Sound q) (he : ThreadPoolQueue.Enabled q e) :
    MutexTurn (actor e) q.mutex (ThreadPoolQueue.next q e).mutex := by
  cases e with
  | call t c => cases c <;> exact .keep _
  | step t => exact stepNext_mutex hs he
  | signal woken => cases woken <;> exact .keep _
  | wake w => exact .keep _

/-- Another thread is moved only out of its wait. -/
def PcKept (p p' : Pc) : Prop := p' = p ∨ p = .popWait ∧ p' = .popWake

theorem update_pcKept {pc : Thread T → Pc} {t v : Thread T} {p : Pc} (hv : v ≠ t) :
    PcKept (pc v) (Function.update pc t p v) := Or.inl (Function.update_of_ne hv p pc)

theorem stepNext_pc {t v : Thread T} (hv : v ≠ t) :
    PcKept (q.pc v) ((stepNext q t (q.pc t)).pc v) := by
  have hmove (p : Pc) : PcKept (q.pc v) (Function.update q.pc t p v) := update_pcKept hv
  cases q.pc t with
  | idle | exited | popWait | pushSignal => exact Or.inl rfl
  | pushLock | popLock | popWake | closeLock | pushUnlock | popUnlock | popFail | closeUnlock
  | pushTail | closeSet | popFree => exact hmove _
  | pushLink fd a =>
    simp only [stepNext, State.setPc]
    rw [linkIn_pc]
    exact hmove _
  | closeBroadcast =>
    simp only [stepNext, State.setPc, PcKept, Function.update_of_ne hv]
    split
    · next hw => exact Or.inr ⟨hw, rfl⟩
    · exact Or.inl rfl
  | popTest =>
    simp only [stepNext]
    split <;> exact hmove _
  | popDecide =>
    simp only [stepNext]
    split
    · exact hmove _
    · split
      · exact hmove _
      · exact Or.inl rfl
  | popUnlink a | popRead a _ =>
    simp only [stepNext]
    split
    · exact hmove _
    · exact Or.inl rfl
  | popTail a fd =>
    obtain ⟨tl, hcut⟩ := cutTail_eq q
    simp only [stepNext]
    rw [hcut]
    exact hmove _

theorem next_pc (he : ThreadPoolQueue.Enabled q e) {v : Thread T} (hv : v ≠ actor e) :
    PcKept (q.pc v) ((ThreadPoolQueue.next q e).pc v) := by
  cases e with
  | call t c => cases c <;> exact update_pcKept hv
  | step t => exact stepNext_pc hv
  | signal woken =>
    cases woken with
    | none => exact update_pcKept hv
    | some w =>
      have hmain : v ≠ .main := hv
      simp only [ThreadPoolQueue.next, State.setPc, Function.update_of_ne hmain]
      by_cases hw : v = .worker w
      · subst hw
        exact Or.inr ⟨he.2, Function.update_self _ _ _⟩
      · exact Or.inl (Function.update_of_ne hw _ _)
  | wake w => exact update_pcKept hv

inductive Code where
  | push
  | pop
  | close
  deriving DecidableEq

/-- The function the statement belongs to. -/
def codeOf : Pc → Option Code
  | .idle => none
  | .pushLock _ _ | .pushLink _ _ | .pushTail _ | .pushSignal | .pushUnlock => some .push
  | .exited | .popLock | .popTest | .popWait | .popWake | .popDecide | .popUnlink _ | .popTail _ _
  | .popUnlock _ _ | .popRead _ _ | .popFree _ _ | .popFail => some .pop
  | .closeLock | .closeSet | .closeBroadcast | .closeUnlock => some .close

def Executes : Thread T → Code → Prop
  | .main, .push | .main, .close | .worker _, .pop | .handler _, .close => True
  | _, _ => False

/-- Each thread is in the functions it calls. -/
def Assigned (q : ThreadPoolQueue.State T) : Prop := ∀ t, ∀ c ∈ codeOf (q.pc t), Executes t c

theorem stepNext_code (t : Thread T) : ∀ c ∈ codeOf ((stepNext q t (q.pc t)).pc t),
    c ∈ codeOf (q.pc t) := by
  intro c hc
  cases hpc : q.pc t with
  | idle | exited | popWait | pushSignal => simpa [hpc, stepNext] using hc
  | pushUnlock | popFree | closeUnlock =>
    simp [hpc, stepNext, State.setPc, State.unlock, codeOf] at hc
  | pushLock | popLock | popWake | closeLock | popUnlock | popFail | pushTail | closeSet
  | pushLink | closeBroadcast | popTail =>
    simpa [hpc, stepNext, State.setPc, State.lock, State.unlock, codeOf] using hc
  | popDecide =>
    simp only [hpc, stepNext] at hc
    split at hc
    · simpa [State.setPc, codeOf] using hc
    · split at hc <;> simpa [State.setPc, codeOf, hpc] using hc
  | popTest | popUnlink a | popRead a _ =>
    simp only [hpc, stepNext] at hc
    split at hc <;> simpa [State.setPc, State.unlock, codeOf, hpc] using hc

theorem next_assigned (h : Assigned q) (he : ThreadPoolQueue.Enabled q e) :
    Assigned (ThreadPoolQueue.next q e) := by
  intro v c hc
  by_cases hv : v = actor e
  · subst hv
    cases e with
    | call t d =>
      obtain ⟨-, hmakes, -⟩ := he
      cases d with
      | push fd a | pop | close =>
        simp only [actor, ThreadPoolQueue.next, State.setPc, Function.update_self, Call.start,
          codeOf, Option.mem_some_iff] at hc
        subst hc
        cases t <;> trivial
    | step t => exact h t c (stepNext_code t c hc)
    | signal woken =>
      refine h .main c ?_
      rw [he.1]
      cases woken <;>
        simpa [actor, ThreadPoolQueue.next, State.setPc, codeOf] using hc
    | wake w =>
      have hw : q.pc (.worker w) = .popWait := he
      refine h (.worker w) c ?_
      rw [hw]
      simpa [actor, ThreadPoolQueue.next, State.setPc, codeOf] using hc
  · refine h v c ?_
    rcases next_pc he hv with hkept | ⟨hwait, hwake⟩
    · rwa [hkept] at hc
    · rw [hwake] at hc
      rwa [hwait]

/-- The statements left to the owner of the mutex before it unlocks or waits. -/
def rank : Pc → ℕ
  | .popTest => 5
  | .pushLink _ _ | .popDecide => 4
  | .pushTail _ | .popUnlink _ | .closeSet => 3
  | .pushSignal | .popTail _ _ | .closeBroadcast => 2
  | .pushUnlock | .popUnlock _ _ | .popFail | .closeUnlock => 1
  | _ => 0

/-- The owner of the mutex waits for nothing. -/
theorem owner_moves (hs : Sound q) (hc : Assigned q) {u : Thread T} (hu : q.mutex = some u) :
    ∃ e, ThreadPoolQueue.Enabled q e ∧ actor e = u ∧
      (e = .step u ∨ ∃ woken, e = .signal woken) ∧
      rank ((ThreadPoolQueue.next q e).pc u) < rank (q.pc u) := by
  have hholds : (q.pc u).holds = true := (hs.exclusive u).mp hu
  have hstep (hr : (q.pc u).Runs q.mutex)
      (hrank : rank ((stepNext q u (q.pc u)).pc u) < rank (q.pc u)) :
      ∃ e, ThreadPoolQueue.Enabled q e ∧ actor e = u ∧
        (e = .step u ∨ ∃ woken, e = .signal woken) ∧
        rank ((ThreadPoolQueue.next q e).pc u) < rank (q.pc u) :=
    ⟨.step u, hr, rfl, Or.inl rfl, hrank⟩
  obtain ⟨hunlink, -, hdecide, -⟩ := hs.pointers u
  cases hpc : q.pc u with
  | idle | exited | pushLock | popLock | popWait | popWake | popRead | popFree | closeLock =>
    rw [hpc] at hholds
    cases hholds
  | pushLink | pushTail | pushUnlock | popTail | popUnlock | popFail | closeSet | closeBroadcast
  | closeUnlock =>
    rw [← hpc]
    refine hstep (by rw [hpc]; trivial) ?_
    simp [hpc, stepNext, State.setPc, State.unlock, rank]
  | popTest =>
    rw [← hpc]
    refine hstep (by rw [hpc]; trivial) ?_
    simp only [hpc, stepNext]
    split <;> simp [State.setPc, State.unlock, rank]
  | popDecide =>
    rw [← hpc]
    refine hstep (by rw [hpc]; trivial) ?_
    simp only [hpc, stepNext]
    split
    · simp [State.setPc, rank]
    · next hopen =>
      cases hhead : q.head with
      | none => exact absurd ⟨hhead, hdecide hpc hhead⟩ hopen
      | some a => simp [State.setPc, rank]
  | popUnlink a =>
    rw [← hpc]
    refine hstep (by rw [hpc]; trivial) ?_
    obtain ⟨j, hj⟩ := hunlink a hpc
    simp [hpc, stepNext, hj, State.setPc, rank]
  | pushSignal =>
    have hmain : u = .main := by
      have hcode := hc u .push (by rw [hpc]; rfl)
      cases u <;> first | rfl | exact hcode.elim
    subst hmain
    by_cases hwaits : ∃ w, q.pc (.worker w) = .popWait
    · obtain ⟨w, hw⟩ := hwaits
      refine ⟨.signal (some w), ⟨hpc, hw⟩, rfl, Or.inr ⟨_, rfl⟩, ?_⟩
      simp [ThreadPoolQueue.next, State.setPc, rank]
    · refine ⟨.signal none, ⟨hpc, not_exists.mp hwaits⟩, rfl, Or.inr ⟨_, rfl⟩, ?_⟩
      simp [ThreadPoolQueue.next, State.setPc, rank]

end Queue

/-! ## The stacks -/

/-- Some handler on top of it has interrupted it. -/
def Interrupted (s : State T) (u : Thread T) : Prop := ∃ t, Hosts t ∧ u ∈ (s.contexts t).tail

/-- The handler has not come past the lock. -/
def Frame.Waits (q : ThreadPoolQueue.State T) (f : Frame) : Prop :=
  f.stage ≠ .closing ∨ q.pc (.handler f.run) = .closeLock

structure Invariant (s : State T) : Prop where
  sound : Sound s.queue
  assigned : Assigned s.queue
  hosts : ∀ t, ¬ Hosts t → s.frames t = []
  apart : ∀ t t' u, Hosts t → Hosts t' → u ∈ s.contexts t → u ∈ s.contexts t' → t = t'
  nodup : ∀ t, (s.contexts t).Nodup
  issued : ∀ t k, Hosts t → .handler k ∈ s.contexts t → k < s.delivered
  busy : ∀ k, s.queue.pc (.handler k) ≠ .idle →
    ∃ t, Hosts t ∧ ∃ f ∈ s.frames t, f.run = k ∧ f.stage = .closing
  waiting : ∀ t u, Hosts t → u ∈ (s.contexts t).tail → s.queue.mutex = some u →
    ∀ f ∈ (s.frames t).head?, f.Waits s.queue

variable {s s' : State T} {e : Event T} {t u : Thread T}

theorem contexts_cons {f : Frame} {rest : List Frame} (h : s.frames t = f :: rest) :
    s.contexts t = .handler f.run :: (rest.map (fun f => .handler f.run) ++ [t]) := by
  simp [State.contexts, h]

theorem contexts_nil (h : s.frames t = []) : s.contexts t = [t] := by simp [State.contexts, h]

theorem top_cons {f : Frame} {rest : List Frame} (h : s.frames t = f :: rest) :
    s.top t = .handler f.run := by simp [State.top, h]

theorem top_nil (h : s.frames t = []) : s.top t = t := by simp [State.top, h]

theorem contexts_eq (s : State T) (t : Thread T) :
    s.contexts t = s.top t :: (s.contexts t).tail := by
  cases hf : s.frames t with
  | nil => simp [contexts_nil hf, top_nil hf]
  | cons f rest => simp [contexts_cons hf, top_cons hf]

/-- What executes is not interrupted. -/
theorem Invariant.top_free (h : Invariant s) (ht : Hosts t) : ¬ Interrupted s (s.top t) := by
  rintro ⟨t', ht', hu⟩
  have hmem : s.top t ∈ s.contexts t := by
    rw [contexts_eq]
    exact List.mem_cons_self
  obtain rfl : t = t' := h.apart t t' _ ht ht' hmem (List.mem_of_mem_tail hu)
  have hnodup := h.nodup t
  rw [contexts_eq, List.nodup_cons] at hnodup
  exact hnodup.1 hu

/-- What is not on top of a stack is interrupted. -/
theorem Invariant.on_top (h : Invariant s) (hu : s.queue.mutex = some u)
    (hfree : ¬ Interrupted s u) : ∃ t, Hosts t ∧ s.top t = u := by
  have hmem {t} (ht : Hosts t) (hm : u ∈ s.contexts t) : s.top t = u := by
    rw [contexts_eq] at hm
    rcases List.mem_cons.mp hm with hm | hm
    · exact hm.symm
    · exact absurd ⟨t, ht, hm⟩ hfree
  have hself (t : Thread T) : t ∈ s.contexts t := by simp [State.contexts]
  cases u with
  | main => exact ⟨.main, trivial, hmem trivial (hself _)⟩
  | worker w => exact ⟨.worker w, trivial, hmem trivial (hself _)⟩
  | handler k =>
    have hholds : (s.queue.pc (.handler k)).holds = true := (h.sound.exclusive _).mp hu
    have hbusy : s.queue.pc (.handler k) ≠ .idle := by
      intro hidle
      rw [hidle] at hholds
      cases hholds
    obtain ⟨t, ht, f, hf, rfl, -⟩ := h.busy k hbusy
    refine ⟨t, ht, hmem ht ?_⟩
    simp only [State.contexts, List.mem_append, List.mem_map]
    exact Or.inl ⟨f, hf, rfl⟩

/-- The stacks change by the delivery of a signal and the return of a handler. -/
inductive StackTurn (s s' : State T) : Prop
  | keep (contexts : ∀ t, s'.contexts t = s.contexts t) (count : s'.delivered = s.delivered)
  | push (t : Thread T) (host : Hosts t)
      (contexts : ∀ u, s'.contexts u =
        if u = t then .handler s.delivered :: s.contexts t else s.contexts u)
      (count : s'.delivered = s.delivered + 1)
  | pop (t : Thread T)
      (contexts : ∀ u, s'.contexts u = if u = t then (s.contexts t).tail else s.contexts u)
      (count : s'.delivered = s.delivered)

theorem setStage_contexts (s : State T) (t u : Thread T) (g : Stage) :
    (s.setStage t g u).map (fun f => (.handler f.run : Thread T)) =
      (s.frames u).map fun f => .handler f.run := by
  unfold State.setStage
  cases hf : s.frames t with
  | nil => rfl
  | cons f rest =>
    by_cases hu : u = t
    · subst hu
      simp [hf]
    · simp [hu]

theorem next_stacks (he : Allowed s e) : StackTurn s (next s e) := by
  cases e with
  | deliver t sig =>
    refine .push t he.1.1 (fun u => ?_) rfl
    by_cases hu : u = t
    · subst hu
      simp [State.contexts, next, framesNext]
    · simp [State.contexts, next, framesNext, hu]
  | ret t =>
    refine .pop t (fun u => ?_) rfl
    by_cases hu : u = t
    · subst hu
      cases hf : s.frames u with
      | nil => simp [Allowed, hf] at he
      | cons f rest => simp [State.contexts, next, framesNext, hf]
    · simp [State.contexts, next, framesNext, hu]
  | store t | close t =>
    refine .keep (fun u => ?_) rfl
    simp only [State.contexts, next, framesNext, setStage_contexts]
  | kill | test | resume | quit | call | step | signal | wake => exact .keep (fun _ => rfl) rfl

/-- What is below the top of a stack after the step. -/
theorem interrupted_next (he : Allowed s e) (hu : u ∈ ((next s e).contexts t).tail) :
    u ∈ (s.contexts t).tail ∨ (∃ sig, e = .deliver t sig) ∧ u ∈ s.contexts t := by
  cases e with
  | deliver t' sig =>
    by_cases htt : t = t'
    · subst htt
      refine Or.inr ⟨⟨sig, rfl⟩, ?_⟩
      simpa [State.contexts, next, framesNext] using hu
    · refine Or.inl ?_
      simpa [State.contexts, next, framesNext, htt] using hu
  | ret t' =>
    refine Or.inl ?_
    by_cases htt : t = t'
    · subst htt
      cases hf : s.frames t with
      | nil => simp [Allowed, hf] at he
      | cons f rest =>
        rw [contexts_cons hf]
        refine List.mem_of_mem_tail ?_
        simpa [State.contexts, next, framesNext, hf] using hu
    · simpa [State.contexts, next, framesNext, htt] using hu
  | store t' | close t' =>
    refine Or.inl ?_
    simpa only [State.contexts, next, framesNext, setStage_contexts] using hu
  | kill | test | resume | quit | call | step | signal | wake => exact Or.inl hu

theorem stacks_apart (h : Invariant s) (st : StackTurn s s') {t t' : Thread T} (ht : Hosts t)
    (ht' : Hosts t') (hu : u ∈ s'.contexts t) (hu' : u ∈ s'.contexts t') : t = t' := by
  cases st with
  | keep contexts =>
    rw [contexts] at hu hu'
    exact h.apart t t' u ht ht' hu hu'
  | push t₀ host contexts =>
    rw [contexts] at hu hu'
    have hnew {v} (hv : Hosts v) : .handler s.delivered ∉ s.contexts v :=
      fun hm => absurd (h.issued v _ hv hm) (Nat.lt_irrefl _)
    split at hu <;> split at hu'
    · next h₁ h₂ => rw [h₁, h₂]
    · next h₁ _ =>
      rcases List.mem_cons.mp hu with rfl | hu
      · exact absurd hu' (hnew ht')
      · exact h.apart t t' u ht ht' (h₁ ▸ hu) hu'
    · next _ h₂ =>
      rcases List.mem_cons.mp hu' with rfl | hu'
      · exact absurd hu (hnew ht)
      · exact h.apart t t' u ht ht' hu (h₂ ▸ hu')
    · exact h.apart t t' u ht ht' hu hu'
  | pop t₀ contexts =>
    have hold {v} (hv : u ∈ s'.contexts v) : u ∈ s.contexts v := by
      rw [contexts] at hv
      split at hv
      · next hv' =>
        rw [hv']
        exact List.mem_of_mem_tail hv
      · exact hv
    exact h.apart t t' u ht ht' (hold hu) (hold hu')

theorem stacks_nodup (h : Invariant s) (st : StackTurn s s') (t : Thread T) :
    (s'.contexts t).Nodup := by
  cases st with
  | keep contexts =>
    rw [contexts]
    exact h.nodup t
  | push t₀ host contexts =>
    rw [contexts]
    split
    · exact List.nodup_cons.mpr
        ⟨fun hm => absurd (h.issued t₀ _ host hm) (Nat.lt_irrefl _), h.nodup t₀⟩
    · exact h.nodup t
  | pop t₀ contexts =>
    rw [contexts]
    split
    · exact (h.nodup t₀).sublist (List.tail_sublist _)
    · exact h.nodup t

theorem stacks_issued (h : Invariant s) (st : StackTurn s s') {t : Thread T} {k : ℕ}
    (ht : Hosts t) (hk : .handler k ∈ s'.contexts t) : k < s'.delivered := by
  cases st with
  | keep contexts count =>
    rw [contexts] at hk
    rw [count]
    exact h.issued t k ht hk
  | push t₀ host contexts count =>
    rw [contexts] at hk
    rw [count]
    split at hk
    · rcases List.mem_cons.mp hk with hk | hk
      · cases hk
        omega
      · have := h.issued t₀ k host hk
        omega
    · have := h.issued t k ht hk
      omega
  | pop t₀ contexts count =>
    rw [contexts] at hk
    rw [count]
    split at hk
    · next hv =>
      subst hv
      exact h.issued t k ht (List.mem_of_mem_tail hk)
    · exact h.issued t k ht hk

theorem interrupted_kept (hu : u ∈ (s.contexts t).tail) :
    e = .ret t ∨ u ∈ ((next s e).contexts t).tail := by
  cases e with
  | deliver t' sig =>
    refine Or.inr ?_
    by_cases htt : t = t'
    · subst htt
      simpa [State.contexts, next, framesNext] using List.mem_of_mem_tail hu
    · simpa [State.contexts, next, framesNext, htt] using hu
  | ret t' =>
    by_cases htt : t = t'
    · exact Or.inl (by rw [htt])
    · exact Or.inr (by simpa [State.contexts, next, framesNext, htt] using hu)
  | store t' | close t' =>
    refine Or.inr ?_
    simpa only [State.contexts, next, framesNext, setStage_contexts] using hu
  | kill | test | resume | quit | call | step | signal | wake => exact Or.inr hu

/-! ## One step -/

theorem Invariant.host (h : Invariant s) (hf : s.frames t ≠ []) : Hosts t := by
  by_contra ht
  exact hf (h.hosts t ht)

/-- Whose code the event executes is on top of a stack, but for a spurious wakeup. -/
theorem actor_on_top (h : Invariant s) {q : ThreadPoolQueue.Event T} (he : Allowed s e)
    (hq : queueEvent s e = some q) :
    (∃ t, Hosts t ∧ s.top t = actor q) ∨ ∃ w, q = .wake w := by
  cases e with
  | close t =>
    cases hq
    refine Or.inl ⟨t, h.host fun hf => ?_, rfl⟩
    simp [Allowed, hf] at he
  | call t c =>
    cases hq
    exact Or.inl ⟨t, he.1, top_nil he.2.1⟩
  | step t =>
    cases hq
    exact Or.inl ⟨t, he, rfl⟩
  | signal woken =>
    cases hq
    exact Or.inl ⟨.main, trivial, top_nil he⟩
  | wake w =>
    cases hq
    exact Or.inr ⟨w, rfl⟩
  | deliver | kill | store | ret | test | resume | quit => cases hq

theorem next_sound_queue (h : Invariant s) (he : Enabled s e) :
    Sound (next s e).queue ∧ Assigned (next s e).queue := by
  simp only [next]
  cases hq : queueEvent s e with
  | none => exact ⟨h.sound, h.assigned⟩
  | some q => exact ⟨next_sound h.sound (he.2.1 q hq), next_assigned h.assigned (he.2.1 q hq)⟩

/-- Only what executes takes or gives back the mutex. -/
theorem owner_turn (h : Invariant s) (he : Enabled s e) :
    (next s e).queue.mutex = s.queue.mutex ∨ ∃ t, Hosts t ∧
      (s.queue.mutex = none ∧ (next s e).queue.mutex = some (s.top t) ∨
        s.queue.mutex = some (s.top t) ∧ (next s e).queue.mutex = none) := by
  simp only [next]
  cases hq : queueEvent s e with
  | none => exact Or.inl rfl
  | some q =>
    rcases actor_on_top h he.1 hq with ⟨t, ht, htop⟩ | ⟨w, rfl⟩
    · have hturn := next_mutex h.sound (he.2.1 q hq)
      rw [← htop] at hturn
      simp only [Option.elim_some]
      generalize (ThreadPoolQueue.next s.queue q).mutex = m' at hturn
      generalize s.queue.mutex = m at hturn
      cases hturn with
      | keep => exact Or.inl rfl
      | acquire => exact Or.inr ⟨t, ht, Or.inl ⟨rfl, rfl⟩⟩
      | release => exact Or.inr ⟨t, ht, Or.inr ⟨rfl, rfl⟩⟩
    · exact Or.inl rfl

theorem next_owner (h : Invariant s) (he : Enabled s e)
    (hu : (next s e).queue.mutex = some u) :
    s.queue.mutex = some u ∨ s.queue.mutex = none ∧ ∃ t, Hosts t ∧ s.top t = u := by
  rcases owner_turn h he with hkeep | ⟨t, ht, ⟨hfree, hown⟩ | ⟨-, hfree⟩⟩
  · exact Or.inl (hkeep.symm.trans hu)
  · exact Or.inr ⟨hfree, t, ht, Option.some.inj (hown.symm.trans hu)⟩
  · rw [hfree] at hu
    cases hu

/-- A handler moves only when it is on top of its stack. -/
theorem next_handler (h : Invariant s) (he : Enabled s e) {k : ℕ}
    (hk : ∀ t, s.top t = .handler k → e ≠ .close t ∧ e ≠ .step t) :
    (next s e).queue.pc (.handler k) = s.queue.pc (.handler k) := by
  simp only [next]
  cases hq : queueEvent s e with
  | none => rfl
  | some q =>
    have hne : .handler k ≠ actor q := by
      intro hact
      cases e with
      | close t =>
        cases hq
        exact (hk t hact.symm).1 rfl
      | step t =>
        cases hq
        exact (hk t hact.symm).2 rfl
      | call t c =>
        cases hq
        rw [actor] at hact
        subst hact
        exact he.1.1
      | signal | wake | deliver | kill | store | ret | test | resume | quit =>
        cases hq <;> cases hact
    rcases next_pc (he.2.1 q hq) hne with hkept | ⟨hwait, -⟩
    · exact hkept
    · exact absurd (h.assigned (.handler k) .pop (by rw [hwait]; rfl)) (by simp [Executes])

/-- A handler's code keeps its frame until it returns. -/
theorem frame_kept (he : Allowed s e) {f : Frame} (hf : f ∈ s.frames t) (hs : f.stage = .closing)
    (hrun : s.queue.pc (.handler f.run) ≠ .idle) : f ∈ (next s e).frames t := by
  have hstage {g g' : Stage} {t' : Thread T} (hg : g ≠ .closing)
      (hhead : (s.frames t').head?.map Frame.stage = some g) : f ∈ s.setStage t' g' t := by
    unfold State.setStage
    by_cases htt : t = t'
    · subst htt
      cases hfr : s.frames t with
      | nil => simp [hfr] at hf
      | cons f₀ rest =>
        rw [hfr] at hf hhead
        rcases List.mem_cons.mp hf with rfl | hf
        · exact absurd (hs.symm.trans (Option.some.inj hhead)) hg.symm
        · simp [hf]
    · cases s.frames t' with
      | nil => exact hf
      | cons f₀ rest => simpa [htt] using hf
  cases e with
  | deliver t' sig =>
    by_cases htt : t = t'
    · subst htt
      simp [next, framesNext, hf]
    · simpa [next, framesNext, htt] using hf
  | store t' => exact hstage (by decide) he
  | close t' => exact hstage (by decide) he
  | ret t' =>
    by_cases htt : t = t'
    · subst htt
      cases hfr : s.frames t with
      | nil => simp [hfr] at hf
      | cons f₀ rest =>
        rw [hfr] at hf
        rcases List.mem_cons.mp hf with rfl | hf
        · rw [Allowed, top_cons hfr] at he
          exact absurd he.2 hrun
        · simpa [next, framesNext, hfr] using hf
    · simpa [next, framesNext, htt] using hf
  | kill | test | resume | quit | call | step | signal | wake => exact hf

theorem next_busy (h : Invariant s) (he : Enabled s e) {k : ℕ}
    (hk : (next s e).queue.pc (.handler k) ≠ .idle) :
    ∃ t, Hosts t ∧ ∃ f ∈ (next s e).frames t, f.run = k ∧ f.stage = .closing := by
  have hold (hbusy : s.queue.pc (.handler k) ≠ .idle) :
      ∃ t, Hosts t ∧ ∃ f ∈ (next s e).frames t, f.run = k ∧ f.stage = .closing := by
    obtain ⟨t, ht, f, hf, rfl, hs⟩ := h.busy k hbusy
    exact ⟨t, ht, f, frame_kept he.1 hf hs hbusy, rfl, hs⟩
  by_cases hact : ∀ t, s.top t = .handler k → e ≠ .close t ∧ e ≠ .step t
  · rw [next_handler h he hact] at hk
    exact hold hk
  · push Not at hact
    obtain ⟨t, htop, hact⟩ := hact
    by_cases hstep : e = .step t
    · subst hstep
      refine hold fun hidle => ?_
      have hruns : (s.queue.pc (s.top t)).Runs s.queue.mutex := he.2.1 _ rfl
      rw [htop, hidle] at hruns
      exact hruns
    · obtain rfl : e = .close t := by
        by_contra hclose
        exact hstep (hact hclose)
      cases hf : s.frames t with
      | nil => simp [Enabled, Allowed, hf] at he
      | cons f rest =>
        rw [top_cons hf] at htop
        refine ⟨t, h.host (by simp [hf]), { f with stage := .closing }, ?_, ?_, rfl⟩
        · simp [next, framesNext, State.setStage, hf]
        · simpa using htop

/-- The top of a stack after a step. -/
theorem head_next {f₀ f : Frame} {rest : List Frame} (hf₀ : s.frames t = f₀ :: rest)
    (hf : f ∈ ((next s e).frames t).head?) :
    f.stage ≠ .closing ∨ f = f₀ ∨ e = .close t ∧ f.run = f₀.run ∨ e = .ret t := by
  have hstage {g : Stage} {t' : Thread T} (hf : f ∈ (s.setStage t' g t).head?) :
      f = f₀ ∨ t' = t ∧ f.stage = g ∧ f.run = f₀.run := by
    unfold State.setStage at hf
    by_cases htt : t = t'
    · subst htt
      rw [hf₀] at hf
      simp only [Function.update_self, List.head?_cons, Option.mem_some_iff] at hf
      subst hf
      exact Or.inr ⟨rfl, rfl, rfl⟩
    · cases hfr : s.frames t' with
      | nil => exact Or.inl (by simpa [hfr, hf₀, eq_comm] using hf)
      | cons f₁ rest₁ => exact Or.inl (by simpa [hfr, htt, hf₀, eq_comm] using hf)
  have hsame (hf : f ∈ (s.frames t).head?) : f = f₀ := by simpa [hf₀, eq_comm] using hf
  cases e with
  | deliver t' sig =>
    by_cases htt : t = t'
    · subst htt
      simp only [next, framesNext, Function.update_self, List.head?_cons, Option.mem_some_iff]
        at hf
      subst hf
      exact Or.inl (by simp)
    · exact Or.inr (Or.inl (hsame (by simpa [next, framesNext, htt] using hf)))
  | store t' =>
    rcases hstage hf with hf | ⟨-, hf, -⟩
    · exact Or.inr (Or.inl hf)
    · exact Or.inl (by simp [hf])
  | close t' =>
    rcases hstage hf with hf | ⟨rfl, -, hf⟩
    · exact Or.inr (Or.inl hf)
    · exact Or.inr (Or.inr (Or.inl ⟨rfl, hf⟩))
  | ret t' =>
    by_cases htt : t = t'
    · subst htt
      exact Or.inr (Or.inr (Or.inr rfl))
    · exact Or.inr (Or.inl (hsame (by simpa [next, framesNext, htt] using hf)))
  | kill | test | resume | quit | call | step | signal | wake => exact Or.inr (Or.inl (hsame hf))

/-- A handler above the owner of the mutex stays where it is. -/
theorem next_waiting (h : Invariant s) (he : Enabled s e) (ht : Hosts t)
    (hu : u ∈ ((next s e).contexts t).tail) (hm : (next s e).queue.mutex = some u) :
    ∀ f ∈ ((next s e).frames t).head?, f.Waits (next s e).queue := by
  intro f hf
  rcases interrupted_next he.1 hu with hu | ⟨⟨sig, rfl⟩, -⟩
  swap
  · simp only [next, framesNext, Function.update_self, List.head?_cons, Option.mem_some_iff] at hf
    subst hf
    exact Or.inl (by simp)
  have hold : s.queue.mutex = some u := by
    rcases next_owner h he hm with hold | ⟨-, t', ht', rfl⟩
    · exact hold
    · exact absurd ⟨t, ht, hu⟩ (h.top_free ht')
  cases hf₀ : s.frames t with
  | nil => simp [contexts_nil hf₀] at hu
  | cons f₀ rest =>
    have hwaits : f₀.Waits s.queue := h.waiting t u ht hu hold f₀ (by simp [hf₀])
    have htop : s.top t = .handler f₀.run := top_cons hf₀
    rcases head_next hf₀ hf with hstage | rfl | ⟨rfl, hrun⟩ | rfl
    · exact Or.inl hstage
    · rcases hwaits with hstage | hlock
      · exact Or.inl hstage
      · refine Or.inr ?_
        rw [next_handler h he fun t' ht' => ⟨?_, ?_⟩]
        · exact hlock
        · rintro rfl
          have hidle : s.queue.pc (s.top t') = .idle := (he.2.1 _ rfl).1
          rw [ht', hlock] at hidle
          cases hidle
        · rintro rfl
          have hruns : (s.queue.pc (s.top t')).Runs s.queue.mutex := he.2.1 _ rfl
          rw [ht', hlock] at hruns
          have hfree : s.queue.mutex = none := hruns
          rw [hold] at hfree
          cases hfree
    · refine Or.inr ?_
      rw [hrun, ← htop]
      simp [next, queueEvent, ThreadPoolQueue.next, State.setPc, Call.start]
    · obtain ⟨hret, hidle⟩ := he.1
      rw [htop] at hidle
      rcases hwaits with hstage | hlock
      · simp [hf₀, hstage] at hret
      · rw [hidle] at hlock
        cases hlock

theorem next_hosts (h : Invariant s) (he : Allowed s e) (ht : ¬ Hosts t) :
    (next s e).frames t = [] := by
  have hold := h.hosts t ht
  have hne {t'} (ht' : Hosts t') : t ≠ t' := by
    rintro rfl
    exact ht ht'
  have hstage (t' : Thread T) (g : Stage) : s.setStage t' g t = [] := by
    unfold State.setStage
    cases hf : s.frames t' with
    | nil => exact hold
    | cons f rest => simp [hne (h.host (by simp [hf]) : Hosts t'), hold]
  cases e with
  | deliver t' sig => simpa [next, framesNext, hne he.1.1] using hold
  | store t' | close t' => exact hstage t' _
  | ret t' =>
    by_cases htt : t = t'
    · subst htt
      simp [next, framesNext, hold]
    · simpa [next, framesNext, htt] using hold
  | kill | test | resume | quit | call | step | signal | wake => exact hold

theorem initial_invariant (oneShot : Bool) : Invariant (initial oneShot : State T) where
  sound := initial_sound
  assigned t c hc := by cases hc
  hosts t _ := rfl
  apart t t' u _ _ hu hu' := by
    rw [List.mem_singleton.mp hu] at hu'
    exact List.mem_singleton.mp hu'
  nodup t := List.nodup_singleton t
  issued t k ht hk := by
    rw [← List.mem_singleton.mp hk] at ht
    exact ht.elim
  busy k hk := absurd rfl hk
  waiting t u _ hu := by cases hu

theorem next_invariant (h : Invariant s) (he : Enabled s e) : Invariant (next s e) where
  sound := (next_sound_queue h he).1
  assigned := (next_sound_queue h he).2
  hosts _ ht := next_hosts h he.1 ht
  apart _ _ _ ht ht' hu hu' := stacks_apart h (next_stacks he.1) ht ht' hu hu'
  nodup t := stacks_nodup h (next_stacks he.1) t
  issued _ _ ht hk := stacks_issued h (next_stacks he.1) ht hk
  busy _ hk := next_busy h he hk
  waiting _ _ ht hu hm := next_waiting h he ht hu hm

theorem run_invariant {oneShot : Bool} {es : List (Event T)} (h : (machine oneShot T).Valid es) :
    Invariant ((machine oneShot T).run es) :=
  Machine.invariant (M := machine oneShot T) (initial_invariant oneShot)
    (fun _ _ hs he => next_invariant hs he) h

/-! ## Interrupting the owner of the mutex -/

/-- The owner of the mutex is executing. -/
def OwnerRuns (s : State T) : Prop := ∀ u, s.queue.mutex = some u → ¬ Interrupted s u

/-- An interrupted owner stays interrupted: the handler above it cannot return. -/
theorem interrupted_stays (h : Invariant s) (he : Enabled s e) (ht : Hosts t)
    (hu : u ∈ (s.contexts t).tail) (hm : s.queue.mutex = some u) :
    u ∈ ((next s e).contexts t).tail ∧ (next s e).queue.mutex = some u := by
  constructor
  · rcases interrupted_kept (e := e) hu with rfl | hkept
    · cases hf : s.frames t with
      | nil => simp [Enabled, Allowed, hf] at he
      | cons f rest =>
        obtain ⟨hret, hidle⟩ := he.1
        rw [top_cons hf] at hidle
        rcases h.waiting t u ht hu hm f (by simp [hf]) with hstage | hlock
        · simp [hf, hstage] at hret
        · rw [hidle] at hlock
          cases hlock
    · exact hkept
  · rcases owner_turn h he with hkeep | ⟨t', ht', ⟨hfree, -⟩ | ⟨hown, -⟩⟩
    · rw [hkeep, hm]
    · rw [hm] at hfree
      cases hfree
    · obtain rfl : u = s.top t' := Option.some.inj (hm.symm.trans hown)
      exact absurd ⟨t, ht, hu⟩ (h.top_free ht')

theorem not_completes (h : Invariant s) (ht : Hosts t) (hu : u ∈ (s.contexts t).tail)
    (hm : s.queue.mutex = some u) : ¬ Completes s t := by
  rintro ⟨es, -, hv, hdone⟩
  induction es generalizing s with
  | nil => simp [contexts_nil (show s.frames t = [] from hdone)] at hu
  | cons e es ih =>
    obtain ⟨he, hv⟩ := hv
    obtain ⟨hu', hm'⟩ := interrupted_stays h he ht hu hm
    exact ih (next_invariant h he) hu' hm' hv hdone

/-- The owner goes on executing exactly when no signal interrupts it. -/
theorem next_ownerRuns (h : Invariant s) (he : Enabled s e) :
    OwnerRuns (next s e) ↔ OwnerRuns s ∧
      ∀ t sig, e = .deliver t sig → ∀ u ∈ s.contexts t, s.queue.mutex ≠ some u := by
  constructor
  · intro hnext
    constructor
    · rintro u hm ⟨t, ht, hu⟩
      obtain ⟨hu, hm⟩ := interrupted_stays h he ht hu hm
      exact hnext u hm ⟨t, ht, hu⟩
    · rintro t sig rfl u hu hm
      refine hnext u hm ⟨t, he.1.1.1, ?_⟩
      simpa [State.contexts, next, framesNext] using hu
  · rintro ⟨hruns, hclear⟩ u hm ⟨t, ht, hu⟩
    rcases interrupted_next he.1 hu with hold | ⟨⟨sig, rfl⟩, hold⟩
    · rcases next_owner h he hm with hm | ⟨-, t', ht', rfl⟩
      · exact hruns u hm ⟨t, ht, hold⟩
      · exact h.top_free ht' ⟨t, ht, hold⟩
    · exact hclear t sig rfl u hold hm

/-- The owner of the mutex is executing, and no signal ended the process inside a handler. -/
structure Intact (s : State T) : Prop where
  runs : OwnerRuns s
  ended : s.killed = true → Quiet s

theorem Quiet.frames (hq : Quiet s) (h : Invariant s) (t : Thread T) : s.frames t = [] := by
  cases t with
  | main => exact hq.1
  | worker w => exact hq.2 w
  | handler k => exact h.hosts _ id

theorem intact_alive (halive : s.killed = false) : Intact s ↔ OwnerRuns s := by
  refine ⟨Intact.runs, fun hruns => ⟨hruns, fun hk => ?_⟩⟩
  rw [halive] at hk
  cases hk

theorem next_alive (hk : ∀ sig, e ≠ .kill sig) : (next s e).killed = s.killed := by
  cases e with
  | kill sig => exact absurd rfl (hk sig)
  | _ => rfl

/-- A step keeps that exactly when the signal it delivers, if any, is clear. -/
theorem next_intact (h : Invariant s) (he : Enabled s e) :
    Intact (next s e) ↔ Intact s ∧ Clear s e := by
  have halive : s.killed = false := he.2.2
  have hruns := next_ownerRuns h he
  have hlater (hk : ∀ sig, e ≠ .kill sig) : Intact (next s e) ↔ OwnerRuns (next s e) :=
    intact_alive ((next_alive hk).trans halive)
  rw [intact_alive halive]
  cases e with
  | deliver t sig =>
    rw [hlater fun _ hk => (by cases hk), hruns]
    refine and_congr_right fun _ => ⟨fun hd => hd t sig rfl, ?_⟩
    rintro hc t' sig' ⟨⟩
    exact hc
  | kill sig =>
    constructor
    · intro hi
      exact ⟨(hruns.mp hi.runs).1, hi.ended rfl⟩
    · rintro ⟨hr, hq⟩
      exact ⟨hruns.mpr ⟨hr, fun t sig' he' => by cases he'⟩, fun _ => hq⟩
  | _ =>
    rw [hlater fun _ hk => (by cases hk), hruns]
    exact and_congr_right fun _ => iff_of_true (fun t sig' he' => by cases he') trivial

/-! ## The handlers return -/

/-- The statements left to the handler on top of a stack, and to the owner of the mutex. -/
def Frame.todo (q : ThreadPoolQueue.State T) (f : Frame) : ℕ :=
  match f.stage with
  | .store => 7
  | .call => 6
  | .closing =>
    match q.pc (.handler f.run) with
    | .closeLock => 5
    | .closeSet => 4
    | .closeBroadcast => 3
    | .closeUnlock => 2
    | _ => 1

def ownerTodo (q : ThreadPoolQueue.State T) : ℕ := q.mutex.elim 0 fun u => rank (q.pc u)

def todo (s : State T) (t : Thread T) : ℕ :=
  100 * (s.frames t).length + 10 * (s.frames t).head?.elim 0 (Frame.todo s.queue) +
    ownerTodo s.queue

theorem Frame.todo_le (q : ThreadPoolQueue.State T) (f : Frame) : f.todo q ≤ 7 := by
  unfold Frame.todo
  split
  · omega
  · omega
  · split <;> omega

theorem ownerTodo_setPc {q : ThreadPoolQueue.State T} {p : Pc} (hp : rank p ≤ rank (q.pc t)) :
    ownerTodo (q.setPc t p) ≤ ownerTodo q := by
  simp only [ownerTodo, State.setPc]
  cases q.mutex with
  | none => exact Nat.le_refl _
  | some u =>
    by_cases hu : u = t
    · subst hu
      simpa using hp
    · simp [hu]

/-- Until its call of `jobq_close` a handler is in none of the queue's code. -/
theorem Invariant.idle (h : Invariant s) {f : Frame} (hf : f ∈ s.frames t)
    (hstage : f.stage ≠ .closing) : s.queue.pc (.handler f.run) = .idle := by
  by_contra hbusy
  obtain ⟨t', ht', f', hf', hrun, hstage'⟩ := h.busy f.run hbusy
  have hmem {t g} (hg : g ∈ s.frames t) : Thread.handler g.run ∈ s.contexts t := by
    simp only [State.contexts, List.mem_append, List.mem_map]
    exact Or.inl ⟨g, hg, rfl⟩
  have ht : Hosts t := h.host (List.ne_nil_of_mem hf)
  obtain rfl : t' = t := h.apart t' t _ ht' ht (hmem hf') (hrun ▸ hmem hf)
  have hnodup : ((s.frames t').map fun f => (Thread.handler f.run : Thread T)).Nodup :=
    (h.nodup t').of_append_left
  have hsame : f' = f := List.inj_on_of_nodup_map hnodup hf' hf (by rw [hrun])
  exact hstage (hsame ▸ hstage')

/-- The owner of the mutex executes a statement of its own. -/
theorem owner_progress (h : Invariant s) (hruns : OwnerRuns s) (halive : s.killed = false)
    (hm : s.queue.mutex = some u) :
    ∃ e, delivers e = false ∧ Enabled s e ∧ (next s e).frames = s.frames ∧
      ownerTodo (next s e).queue < ownerTodo s.queue ∧
      ∀ v, v ≠ u → PcKept (s.queue.pc v) ((next s e).queue.pc v) := by
  obtain ⟨t, ht, htop⟩ := h.on_top hm (hruns u hm)
  obtain ⟨q, hq, hact, hkind, hrank⟩ := owner_moves h.sound h.assigned hm
  have hless : ownerTodo (ThreadPoolQueue.next s.queue q) < ownerTodo s.queue := by
    have hturn := next_mutex h.sound hq
    rw [hact, hm] at hturn
    simp only [ownerTodo, hm, Option.elim_some]
    generalize (ThreadPoolQueue.next s.queue q).mutex = m' at hturn
    cases hturn with
    | keep => exact hrank
    | release => exact Nat.zero_lt_of_lt hrank
  have hothers (v : Thread T) (hv : v ≠ u) := next_pc hq (v := v) (hact ▸ hv)
  rcases hkind with rfl | ⟨woken, rfl⟩
  · refine ⟨.step t, rfl, ⟨ht, ?_, halive⟩, rfl, ?_⟩
    · simpa [queueEvent, htop] using hq
    · simpa only [next, queueEvent, htop, Option.elim_some] using ⟨hless, hothers⟩
  · have hmain : s.frames .main = [] := by
      cases hf : s.frames t with
      | nil =>
        rw [top_nil hf] at htop
        rwa [htop, ← hact] at hf
      | cons f rest =>
        rw [top_cons hf, ← hact] at htop
        cases htop
    refine ⟨.signal woken, rfl, ⟨hmain, ?_, halive⟩, rfl, ?_⟩
    · simpa [queueEvent] using hq
    · simpa only [next, queueEvent, Option.elim_some] using ⟨hless, hothers⟩

theorem todo_cons {f : Frame} {rest : List Frame} (hf : s.frames t = f :: rest) :
    todo s t = 100 * (rest.length + 1) + 10 * f.todo s.queue + ownerTodo s.queue := by
  simp [todo, hf]

/-- While a handler is on the stack, it or the owner of the mutex can execute a statement that
brings its return nearer. -/
theorem progress (h : Invariant s) (hruns : OwnerRuns s) (halive : s.killed = false) {f : Frame}
    {rest : List Frame} (hf : s.frames t = f :: rest) :
    ∃ e, delivers e = false ∧ Enabled s e ∧ todo (next s e) t < todo s t := by
  have ht : Hosts t := h.host (by simp [hf])
  have htop : s.top t = .handler f.run := top_cons hf
  have hcode := h.assigned (.handler f.run)
  rw [todo_cons hf]
  cases hstage : f.stage with
  | store =>
    refine ⟨.store t, rfl, ⟨by simp [Allowed, hf, hstage], by simp [queueEvent], halive⟩, ?_⟩
    have hf' : (next s (.store t)).frames t = { f with stage := .call } :: rest := by
      simp [next, framesNext, State.setStage, hf]
    rw [todo_cons hf']
    have hold : f.todo s.queue = 7 := by simp [Frame.todo, hstage]
    have hnew : Frame.todo s.queue { f with stage := .call } = 6 := rfl
    change 100 * (rest.length + 1) + 10 * Frame.todo s.queue { f with stage := .call } +
      ownerTodo s.queue < _
    omega
  | call =>
    have hidle := h.idle (t := t) (f := f) (by simp [hf]) (by simp [hstage])
    refine ⟨.close t, rfl, ⟨by simp [Allowed, hf, hstage], ?_, halive⟩, ?_⟩
    · simpa [queueEvent, htop, ThreadPoolQueue.Enabled, Thread.Makes] using hidle
    · have hf' : (next s (.close t)).frames t = { f with stage := .closing } :: rest := by
        simp [next, framesNext, State.setStage, hf]
      have hq : (next s (.close t)).queue = s.queue.setPc (.handler f.run) .closeLock := by
        simp [next, queueEvent, htop, ThreadPoolQueue.next, Call.start]
      rw [todo_cons hf', hq]
      have howner : ownerTodo (s.queue.setPc (.handler f.run) .closeLock) ≤ ownerTodo s.queue :=
        ownerTodo_setPc (by simp [rank])
      have hold : f.todo s.queue = 6 := by simp [Frame.todo, hstage]
      have hnew : Frame.todo (s.queue.setPc (.handler f.run) .closeLock)
          { f with stage := .closing } = 5 := by simp [Frame.todo, State.setPc]
      omega
  | closing =>
    have hstep (hruns : (s.queue.pc (.handler f.run)).Runs s.queue.mutex)
        (hless : 10 * f.todo (stepNext s.queue (.handler f.run) (s.queue.pc (.handler f.run))) +
          ownerTodo (stepNext s.queue (.handler f.run) (s.queue.pc (.handler f.run))) <
          10 * f.todo s.queue + ownerTodo s.queue) :
        ∃ e, delivers e = false ∧ Enabled s e ∧ todo (next s e) t <
          100 * (rest.length + 1) + 10 * f.todo s.queue + ownerTodo s.queue := by
      refine ⟨.step t, rfl, ⟨ht, ?_, halive⟩, ?_⟩
      · simpa [queueEvent, htop, ThreadPoolQueue.Enabled] using hruns
      · have hf' : (next s (.step t)).frames t = f :: rest := hf
        have hq : (next s (.step t)).queue =
            stepNext s.queue (.handler f.run) (s.queue.pc (.handler f.run)) := by
          simp [next, queueEvent, htop, ThreadPoolQueue.next]
        rw [todo_cons hf', hq]
        omega
    have hown (hh : (s.queue.pc (.handler f.run)).holds = true) :
        s.queue.mutex = some (.handler f.run) := (h.sound.exclusive _).mpr hh
    cases hpc : s.queue.pc (.handler f.run) with
    | idle =>
      refine ⟨.ret t, rfl, ⟨?_, by simp [queueEvent], halive⟩, ?_⟩
      · simp [Allowed, hf, hstage, htop, hpc]
      · have hhead : rest.head?.elim 0 (Frame.todo s.queue) ≤ 7 := by
          cases rest with
          | nil => exact Nat.zero_le _
          | cons f' _ => exact f'.todo_le s.queue
        have hnew : todo (next s (.ret t)) t = 100 * rest.length +
            10 * rest.head?.elim 0 (Frame.todo s.queue) + ownerTodo s.queue := by
          simp [todo, next, framesNext, queueEvent, hf]
        omega
    | closeLock =>
      cases hm : s.queue.mutex with
      | none =>
        refine hstep (by rw [hpc, hm]; rfl) ?_
        simp [hpc, stepNext, State.setPc, State.lock, Frame.todo, hstage, ownerTodo, hm, rank]
      | some u =>
        have hne : Thread.handler f.run ≠ u := by
          rintro rfl
          have hh : (s.queue.pc (.handler f.run)).holds = true := (h.sound.exclusive _).mp hm
          rw [hpc] at hh
          cases hh
        obtain ⟨e, hd, he, hframes, hless, hothers⟩ := owner_progress h hruns halive hm
        refine ⟨e, hd, he, ?_⟩
        rw [todo_cons (by rw [hframes, hf])]
        have hsame : (next s e).queue.pc (.handler f.run) = .closeLock := by
          rcases hothers _ hne with hkept | ⟨hwait, -⟩
          · rw [hkept, hpc]
          · rw [hpc] at hwait
            cases hwait
        have hnew : f.todo (next s e).queue = f.todo s.queue := by
          simp [Frame.todo, hstage, hsame, hpc]
        omega
    | closeSet | closeBroadcast | closeUnlock =>
      have hm := hown (by rw [hpc]; rfl)
      refine hstep (by rw [hpc]; trivial) ?_
      simp [hpc, stepNext, State.setPc, State.unlock, Frame.todo, hstage, ownerTodo, hm, rank]
    | _ =>
      rw [hpc] at hcode
      exact absurd (hcode _ rfl) (by simp [Executes])

/-- When the owner of the mutex executes, all handlers can return. -/
theorem completes (h : Invariant s) (hi : Intact s) (t : Thread T) : Completes s t := by
  induction hn : todo s t using Nat.strong_induction_on generalizing s with
  | _ n ih =>
    cases hf : s.frames t with
    | nil => exact ⟨[], by simp, trivial, hf⟩
    | cons f rest =>
      have halive : s.killed = false := by
        refine Bool.eq_false_iff.mpr fun hk => ?_
        rw [(hi.ended hk).frames h t] at hf
        cases hf
      obtain ⟨e, hd, he, hless⟩ := progress h hi.runs halive hf
      have hclear : Clear s e := by
        cases e with
        | deliver => cases hd
        | kill => cases hd
        | _ => trivial
      obtain ⟨es, hds, hv, hdone⟩ := ih _ (hn ▸ hless) (next_invariant h he)
        ((next_intact h he).mpr ⟨hi, hclear⟩) rfl
      refine ⟨e :: es, ?_, ⟨he, hv⟩, hdone⟩
      rintro e' (_ | ⟨_, he'⟩)
      · exact hd
      · exact hds e' he'

/-- After the end of the process nothing returns any more. -/
theorem killed_not_completes (hk : s.killed = true) (hf : s.frames t ≠ []) : ¬ Completes s t := by
  rintro ⟨es, -, hv, hdone⟩
  cases es with
  | nil => exact hf hdone
  | cons e es =>
    have halive : s.killed = false := hv.1.2.2
    rw [hk] at halive
    cases halive

theorem signalSafe_iff (h : Invariant s) : SignalSafe s ↔ Intact s := by
  constructor
  · rintro ⟨-, hall⟩
    refine ⟨fun u hm ⟨t, ht, hu⟩ => not_completes h ht hu hm (hall t), fun hk => ?_⟩
    have hquiet (t : Thread T) : s.frames t = [] :=
      of_not_not fun hf => killed_not_completes hk hf (hall t)
    exact ⟨hquiet _, fun w => hquiet _⟩
  · intro hi
    refine ⟨?_, completes h hi⟩
    rintro t ⟨hne, hlock, u, hu, hm⟩
    rw [contexts_eq] at hu
    rcases List.mem_cons.mp hu with rfl | hu
    · have hh : (s.queue.pc (s.top t)).holds = true := (h.sound.exclusive _).mp hm
      rw [hlock] at hh
      cases hh
    · exact hi.runs u hm ⟨t, h.host hne, hu⟩

/-- In a run all states are safe exactly when no signal was delivered to the owner of the
mutex and none ended the process inside a handler. -/
theorem signal_safe_iff (oneShot : Bool) (T : ℕ) (es : List (Event T))
    (h : (machine oneShot T).Valid es) :
    (machine oneShot T).Along Clear es ↔
      (machine oneShot T).Along (fun s e => SignalSafe ((machine oneShot T).next s e)) es := by
  refine Machine.along_iff_reached ?_ (fun fs e hv he hsafe => ?_) h
  · exact (signalSafe_iff (initial_invariant oneShot)).mpr
      ⟨fun u hm => (by cases hm), fun hk => (by cases hk)⟩
  · have hinv := run_invariant hv
    refine (signalSafe_iff (next_invariant hinv he)).trans ((next_intact hinv he).trans ?_)
    exact and_iff_right ((signalSafe_iff hinv).mp hsafe)

/-- SIGINT interrupts `accept` while the worker waits for a job, SIGTERM interrupts the
handler before its `jobq_close`, and a second SIGINT ends the process after both. -/
theorem signal_safe_in_accept :
    let es : List (Event 1) :=
      [.test (.worker 0), .call (.worker 0) .pop, .step (.worker 0), .step (.worker 0),
        .test .main, .deliver .main .sigint, .store .main, .deliver .main .sigterm, .store .main,
        .close .main, .step .main, .step .main, .step .main, .step .main, .ret .main, .close .main,
        .step .main, .step .main, .step .main, .step .main, .ret .main, .quit, .kill .sigint]
    (machine true 1).Valid es ∧
      (machine true 1).Along (fun s e => SignalSafe ((machine true 1).next s e)) es := by
  intro es
  have hv : (machine true 1).Valid es := by decide +kernel
  exact ⟨hv, (signal_safe_iff true 1 es hv).mp (by decide +kernel)⟩

/-- SIGINT interrupts `jobq_push` between its lock and its unlock. -/
theorem self_lock_in_push :
    let es : List (Event 1) :=
      [.test .main, .call .main (.push 7 1), .step .main, .deliver .main .sigint, .store .main,
        .close .main]
    (machine true 1).Valid es ∧ SelfLock ((machine true 1).run es) .main ∧
      ¬ Completes ((machine true 1).run es) .main := by
  intro es
  have hv : (machine true 1).Valid es := by decide
  have hm : ((machine true 1).run es).queue.mutex = some .main := by decide
  have hmain : .main ∈ (((machine true 1).run es).contexts .main).tail := by decide
  exact ⟨hv, ⟨by decide, by decide, .main, List.mem_of_mem_tail hmain, hm⟩,
    not_completes (run_invariant hv) trivial hmain hm⟩

/-- A second SIGINT ends the process inside the handler of the first one. -/
example : ¬ Completes
    ((machine true 1).run [.test .main, .deliver .main .sigint, .kill .sigint]) .main :=
  killed_not_completes rfl (by decide)

end ThreadPoolSignals
