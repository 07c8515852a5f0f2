import LinuxLabs.Execution
import LinuxLabs.Signals
import Mathlib.Data.List.Basic

/-! # The child that is stopped, continued and terminated (lab 08 of the processes)
SIGSTOP cannot be caught, so the child stops without a word of its handler; and a SIGTERM that is
sent to it then waits for a SIGCONT, which a parent in `waitpid` does not send. A parent that ends
may leave their process group without a tie to its session; if the child is stopped then, the
kernel sends SIGHUP and SIGCONT. The parent is no session leader. -/
namespace SignalControl

open Execution Signals

inductive Signal where
  | term
  | stop
  | cont
  | hup
  deriving DecidableEq

def effect : Signal → Effect
  | .term | .hup => .terminate
  | .stop => .stop
  | .cont => .resume

/-- What the two processes print. -/
inductive Line where
  | menu
  | sent (g : Signal)
  | terminated
  | exiting
  | invalid
  | started
  | working
  | received (g : Signal)
  | terminating
  | stopReceived
  | resuming
  deriving DecidableEq

inductive Pos where
  | menu
  | waiting
  | exited
  deriving DecidableEq

/-- `setup` counts the calls of `sigaction` the child has made; what the parent has sent is
history. `tie` tells that the parent is what ties the group to the session, as in the job of a
shell. -/
structure State where
  tie : Bool
  parent : Pos
  child : Process Signal
  setup : ℕ
  out : List Line
  sent : List Signal

def initial (tie : Bool) : State := ⟨tie, .menu, .start, 0, [], []⟩

/-- `choose none` is `scanf` finding no number. -/
inductive Event where
  | choose (choice : Option ℤ)
  | install
  | work
  | take (g : Signal)
  | reap
  deriving DecidableEq

def Running (s : State) : Prop := s.child.stopped = false ∧ s.child.ended = false

instance (s : State) : Decidable (Running s) := inferInstanceAs (Decidable (_ ∧ _))

def Enabled (s : State) : Event → Prop
  | .choose _ => s.parent = .menu
  | .install => Running s ∧ s.setup < 3
  | .work => Running s ∧ s.setup = 3
  | .take g => s.child.CanTake g
  | .reap => s.parent = .waiting ∧ s.child.ended = true

/-- The `sigaction` for SIGSTOP fails. -/
def caught (setup : ℕ) : Signal → Bool
  | .term => 1 ≤ setup
  | .stop | .hup => false
  | .cont => 3 ≤ setup

def State.kill (s : State) (g : Signal) : State :=
  { s with child := s.child.send effect g, sent := s.sent ++ [g] }

def State.print (s : State) (lines : List Line) : State := { s with out := s.out ++ lines }

/-- The parent ends. -/
def State.exit (s : State) : State :=
  { s with
    parent := .exited
    child :=
      if s.tie = true ∧ s.child.stopped = true then
        (s.child.send effect .hup).send effect .cont
      else s.child }

/-- `handle_signal`; it is not installed for SIGHUP. -/
def handleSignal (s : State) (g : Signal) : State :=
  let s := s.print [.received g]
  match g with
  | .term => { s.print [.terminating] with child := s.child.exit }
  | .stop => s.print [.stopReceived]
  | .cont => s.print [.resuming]
  | .hup => s

def choose (s : State) : Option ℤ → State
  | some 1 => (s.kill .stop).print [.sent .stop]
  | some 2 => (s.kill .cont).print [.sent .cont]
  | some 3 => { (s.kill .term).print [.sent .term] with parent := .waiting }
  | some 4 => ((s.print [.exiting]).kill .term).exit
  | some _ => s.print [.invalid]
  | none => s.exit

def next (s : State) : Event → State
  | .choose choice => choose (s.print [.menu]) choice
  | .install =>
    { s.print (if s.setup = 2 then [.started] else []) with setup := s.setup + 1 }
  | .work => s.print [.working]
  | .take g =>
    let s' := { s with child := s.child.take effect (caught s.setup g) g }
    if caught s.setup g then handleSignal s' g else s'
  | .reap => (s.print [.terminated]).exit

def machine (tie : Bool) : Machine State Event := ⟨initial tie, Enabled, next⟩

instance (tie : Bool) (s : State) (e : Event) : Decidable ((machine tie).Enabled s e) := by
  simp only [machine]
  casesm Event <;> simp only [Enabled] <;> infer_instance

/-- The last of the choices that stop or continue the child. -/
def lastControl (sent : List Signal) : Option Signal := (sent.filter (· ≠ .term)).getLast?

/-! ## Each step -/

/-- Until the kernel hangs up, the last of the choices 1 and 2 tells whether the child halts. -/
structure Invariant (s : State) : Prop where
  halting : s.child.ended = false → .hup ∉ s.child.pending →
    (Halting effect s.child ↔ lastControl s.sent = some .stop)
  menu : s.parent = .menu → s.child.ended = false ∧ .term ∉ s.child.pending
  hangup : s.parent ≠ .exited → .hup ∉ s.child.pending
  waiting : s.parent = .waiting → s.child.ended = false → .term ∈ s.child.pending
  silent : Line.stopReceived ∉ s.out

variable {s : State} {e : Event} {g : Signal} {choice : Option ℤ} {tie : Bool}

theorem lastControl_concat (sent : List Signal) (g : Signal) :
    lastControl (sent ++ [g]) = if g = .term then lastControl sent else some g := by
  unfold lastControl
  rw [List.filter_append]
  by_cases hg : g = .term <;> simp [hg]

theorem Invariant.print (h : Invariant s) {lines : List Line} (hl : Line.stopReceived ∉ lines) :
    Invariant (s.print lines) := by
  refine ⟨h.halting, h.menu, h.hangup, h.waiting, ?_⟩
  intro hm
  rcases List.mem_append.mp hm with hm | hm
  · exact h.silent hm
  · exact hl hm

/-- What the child is about to do with a signal of the parent. -/
theorem Invariant.sent (h : Invariant s) (hp : s.parent = .menu) (hg : g ≠ .hup) :
    .hup ∉ (s.kill g).child.pending ∧
      (Halting effect (s.kill g).child ↔ lastControl (s.kill g).sent = some .stop) := by
  have hlive := (h.menu hp).1
  have hhup := h.hangup (by rw [hp]; decide)
  constructor
  · intro hm
    rcases of_mem_send hm with heq | hm
    · exact hg heq.symm
    · exact hhup hm
  · simp only [State.kill, lastControl_concat]
    cases g with
    | term =>
      rw [if_pos rfl, halting_send (by decide) (by decide)]
      exact h.halting hlive hhup
    | stop => exact iff_of_true (halting_send_stop hlive rfl) rfl
    | cont => exact iff_of_false (not_halting_send_resume hlive rfl) (by simp)
    | hup => exact absurd rfl hg

/-- A choice after which the parent is in the menu again. -/
theorem Invariant.control (h : Invariant s) (hp : s.parent = .menu) (hg : g = .stop ∨ g = .cont) :
    Invariant (s.kill g) := by
  obtain ⟨hlive, hterm⟩ := h.menu hp
  have hne : g ≠ .hup ∧ g ≠ .term := by rcases hg with rfl | rfl <;> decide
  obtain ⟨hhup, hhalting⟩ := h.sent hp hne.1
  refine ⟨fun _ _ => hhalting, fun _ => ⟨send_ended.trans hlive, fun hm => ?_⟩, fun _ => hhup,
    fun hw => absurd (hp.symm.trans hw) (by decide), h.silent⟩
  rcases of_mem_send hm with heq | hm
  · exact hne.2 heq.symm
  · exact hterm hm

/-- The end of the parent changes nothing but for a stopped child that is tied to it, which the
signals of the kernel then continue and end. -/
theorem exit_cases (s : State) :
    (s.tie = true ∧ s.child.stopped = true ∧
        s.exit.child = (s.child.send effect .hup).send effect .cont) ∨
      ¬ (s.tie = true ∧ s.child.stopped = true) ∧ s.exit.child = s.child := by
  unfold State.exit
  split_ifs with ht
  · exact Or.inl ⟨ht.1, ht.2, rfl⟩
  · exact Or.inr ⟨ht, rfl⟩

theorem hup_pending {p : Process Signal} (hlive : p.ended = false) :
    .hup ∈ ((p.send effect .hup).send effect .cont).pending :=
  mem_send_of_mem (mem_send hlive) (by decide) (by decide)

theorem exit_ended (s : State) : s.exit.child.ended = s.child.ended := by
  rcases exit_cases s with ⟨-, -, heq⟩ | ⟨-, heq⟩
  · rw [heq, send_ended, send_ended]
  · rw [heq]

theorem Invariant.exit (hhalting : s.child.ended = false → .hup ∉ s.child.pending →
      (Halting effect s.child ↔ lastControl s.sent = some .stop))
    (hsilent : Line.stopReceived ∉ s.out) : Invariant s.exit := by
  refine ⟨fun hlive hhup => ?_, nofun, fun hne => absurd rfl hne, nofun, hsilent⟩
  rw [exit_ended] at hlive
  rcases exit_cases s with ⟨-, -, heq⟩ | ⟨-, heq⟩
  · rw [heq] at hhup
    exact absurd (hup_pending hlive) hhup
  · rw [heq] at hhup ⊢
    exact hhalting hlive hhup

theorem Invariant.choose (h : Invariant s) (hp : s.parent = .menu) (choice : Option ℤ) :
    Invariant (choose s choice) := by
  unfold SignalControl.choose
  split
  · exact (h.control hp (Or.inl rfl)).print (by decide)
  · exact (h.control hp (Or.inr rfl)).print (by decide)
  · obtain ⟨hhup, hhalting⟩ := h.sent (g := .term) hp (by decide)
    refine Invariant.print (s := { s.kill .term with parent := .waiting }) ?_ (by decide)
    exact ⟨fun _ _ => hhalting, nofun, fun _ => hhup,
      fun _ he => mem_send (send_ended.symm.trans he), h.silent⟩
  · have hprint : Invariant (s.print [.exiting]) := h.print (by decide)
    exact Invariant.exit (fun _ _ => (hprint.sent (g := .term) hp (by decide)).2) hprint.silent
  · exact h.print (by decide)
  · exact Invariant.exit h.halting h.silent

theorem caught_stop (h : caught s.setup g = true) : effect g ≠ .stop := by
  cases g with
  | stop => exact absurd h (by simp [caught])
  | term | cont | hup => decide

/-- SIGTERM ends the child, by its handler or without it, and so does SIGHUP. -/
theorem take_ends (s : State) (hg : g = .term ∨ g = .hup) :
    (next s (.take g)).child.ended = true := by
  simp only [next]
  rcases hg with rfl | rfl
  · cases hc : caught s.setup .term with
    | true => rfl
    | false => exact take_ended.mpr (Or.inr ⟨rfl, rfl⟩)
  · exact take_ended.mpr (Or.inr ⟨rfl, rfl⟩)

/-- The other signals leave the child to what the kernel does. -/
theorem take_child (hg : g ≠ .term) :
    (next s (.take g)).child = s.child.take effect (caught s.setup g) g := by
  simp only [next]
  split_ifs
  · cases g with
    | term => exact absurd rfl hg
    | stop | cont | hup => rfl
  · rfl

theorem take_live (hg : ¬ (g = .term ∨ g = .hup)) :
    (next s (.take g)).child.ended = s.child.ended := by
  have hkeep : effect g ≠ .terminate := by cases g <;> simp [effect] at hg ⊢
  rw [take_child fun hterm => hg (Or.inl hterm)]
  exact Bool.eq_iff_iff.mpr (take_ended.trans (or_iff_left fun hk => hkeep hk.2))

theorem next_pending (s : State) (g : Signal) :
    (next s (.take g)).child.pending = s.child.pending.erase g := by
  simp only [next]
  split_ifs
  · cases g <;> exact take_pending
  · exact take_pending

theorem take_frame (s : State) (g : Signal) :
    (next s (.take g)).sent = s.sent ∧ (next s (.take g)).parent = s.parent := by
  simp only [next]
  split_ifs
  · cases g <;> exact ⟨rfl, rfl⟩
  · exact ⟨rfl, rfl⟩

theorem take_silent (h : Line.stopReceived ∉ s.out) :
    Line.stopReceived ∉ (next s (.take g)).out := by
  simp only [next]
  cases g with
  | stop | hup => exact h
  | term | cont =>
    split_ifs
    · simp [handleSignal, State.print, h]
    · exact h

theorem Invariant.take (h : Invariant s) (ht : s.child.CanTake g) :
    Invariant (next s (.take g)) := by
  obtain ⟨hsent, hparent⟩ := take_frame s g
  have hhup : (next s (.take g)).parent ≠ .exited → .hup ∉ (next s (.take g)).child.pending := by
    intro hp hm
    rw [next_pending] at hm
    exact h.hangup (hparent ▸ hp) (Finset.mem_of_mem_erase hm)
  by_cases hg : g = .term ∨ g = .hup
  · have hended := take_ends s hg
    refine ⟨fun he => Bool.noConfusion (hended.symm.trans he), fun hp => ?_, hhup,
      fun _ he => Bool.noConfusion (hended.symm.trans he), take_silent h.silent⟩
    rw [hparent] at hp
    rcases hg with rfl | rfl
    · exact absurd ht.1 (h.menu hp).2
    · exact absurd ht.1 (h.hangup (by rw [hp]; decide))
  · have hlive := take_live (s := s) hg
    obtain ⟨hterm, hnohup⟩ := not_or.mp hg
    refine ⟨fun he hp => ?_, fun hp => ?_, hhup, fun hp he => ?_, take_silent h.silent⟩
    · rw [next_pending] at hp
      rw [take_child hterm, halting_take ht caught_stop, hsent]
      exact h.halting (hlive.symm.trans he)
        fun hm => hp (Finset.mem_erase.mpr ⟨Ne.symm hnohup, hm⟩)
    · obtain ⟨hold, hno⟩ := h.menu (hparent ▸ hp)
      refine ⟨hlive.trans hold, fun hm => ?_⟩
      rw [next_pending] at hm
      exact hno (Finset.mem_of_mem_erase hm)
    · rw [next_pending]
      exact Finset.mem_erase.mpr ⟨Ne.symm hterm, h.waiting (hparent ▸ hp) (hlive.symm.trans he)⟩

theorem step_invariant (h : Invariant s) (he : Enabled s e) : Invariant (next s e) := by
  cases e with
  | choose choice => exact (h.print (by decide)).choose he choice
  | install =>
    have hprint : Invariant (s.print (if s.setup = 2 then [.started] else [])) := by
      apply h.print
      split_ifs <;> decide
    exact ⟨hprint.halting, hprint.menu, hprint.hangup, hprint.waiting, hprint.silent⟩
  | work => exact h.print (by decide)
  | take g => exact h.take he
  | reap =>
    have hprint : Invariant (s.print [.terminated]) := h.print (by decide)
    exact Invariant.exit hprint.halting hprint.silent

theorem initial_invariant (tie : Bool) : Invariant (initial tie) := by
  have hlast : lastControl [] ≠ some .stop := by decide
  refine ⟨fun _ _ => iff_of_false not_halting_start hlast, fun _ => ⟨rfl, ?_⟩, fun _ => ?_,
    nofun, nofun⟩
  · simp [initial, Process.start]
  · simp [initial, Process.start]

theorem run_invariant {es : List Event} (h : (machine tie).Valid es) :
    Invariant ((machine tie).run es) :=
  Machine.invariant (I := Invariant) (initial_invariant tie)
    (fun _ _ hs he => step_invariant hs he) h

/-! ## Runs that go on -/

/-- The parent sends nothing more. -/
theorem step_after (hp : s.parent ≠ .menu) (he : Enabled s e) :
    (next s e).parent ≠ .menu ∧ (next s e).sent = s.sent := by
  cases e with
  | choose choice => exact absurd he hp
  | install | work => exact ⟨hp, rfl⟩
  | take g =>
    obtain ⟨hsent, hparent⟩ := take_frame s g
    rw [hparent]
    exact ⟨hp, hsent⟩
  | reap => exact ⟨nofun, rfl⟩

/-- A stopped child does nothing, and neither does the parent that waits for it. -/
theorem step_stuck (hp : s.parent = .waiting) (hstop : s.child.stopped = true)
    (hlive : s.child.ended = false) : ¬ Enabled s e := by
  intro he
  cases e with
  | choose choice => exact absurd (hp.symm.trans he) (by decide)
  | install | work => exact Bool.noConfusion (hstop.symm.trans he.1.1)
  | take g => exact Bool.noConfusion (hstop.symm.trans he.2.1)
  | reap => exact Bool.noConfusion (hlive.symm.trans he.2)

theorem after_parent {es fs : List Event} (hp : ((machine tie).run es).parent ≠ .menu)
    (h : (machine tie).Valid (es ++ fs)) :
    ((machine tie).run (es ++ fs)).parent ≠ .menu ∧
      ((machine tie).run (es ++ fs)).sent = ((machine tie).run es).sent := by
  refine Machine.persists
    (P := fun s => s.parent ≠ .menu ∧ s.sent = ((machine tie).run es).sent) h ⟨hp, rfl⟩ ?_
  intro gs e _ he ⟨hp, hsent⟩
  obtain ⟨hp', hsent'⟩ := step_after hp he
  exact ⟨hp', hsent'.trans hsent⟩

/-- Nothing that would end the child is under way, nor anybody who would send it. -/
structure Abandoned (s : State) : Prop where
  exited : s.parent = .exited
  live : s.child.ended = false
  pending : ∀ g ∈ s.child.pending, ¬ (g = .term ∨ g = .hup)

theorem step_abandoned (h : Abandoned s) (he : Enabled s e) : Abandoned (next s e) := by
  cases e with
  | choose choice => exact absurd (h.exited.symm.trans he) (by decide)
  | install | work => exact ⟨h.exited, h.live, h.pending⟩
  | take g =>
    refine ⟨(take_frame s g).2.trans h.exited, ?_, fun k hk => ?_⟩
    · exact (take_live (h.pending g he.1)).trans h.live
    · rw [next_pending] at hk
      exact h.pending k (Finset.mem_of_mem_erase hk)
  | reap => exact absurd (h.exited.symm.trans he.1) (by decide)

/-- The child has been sent SIGHUP and is not stopped. -/
structure HungUp (s : State) : Prop where
  exited : s.parent = .exited
  ends : s.child.ended = true ∨ .hup ∈ s.child.pending ∧ ¬ Halting effect s.child

theorem step_hungUp (h : HungUp s) (he : Enabled s e) : HungUp (next s e) := by
  cases e with
  | choose choice => exact absurd (h.exited.symm.trans he) (by decide)
  | install | work => exact ⟨h.exited, h.ends⟩
  | take g =>
    have hexited := (take_frame s g).2.trans h.exited
    by_cases hg : g = .term ∨ g = .hup
    · exact ⟨hexited, Or.inl (take_ends s hg)⟩
    · obtain ⟨hterm, hnohup⟩ := not_or.mp hg
      refine ⟨hexited, ?_⟩
      rcases h.ends with hended | ⟨hm, hgoes⟩
      · exact Or.inl ((take_live hg).trans hended)
      · rw [next_pending, take_child hterm, halting_take he caught_stop]
        exact Or.inr ⟨Finset.mem_erase.mpr ⟨Ne.symm hnohup, hm⟩, hgoes⟩
  | reap => exact absurd (h.exited.symm.trans he.1) (by decide)

/-- Such a child has ended or can take the SIGHUP. -/
theorem HungUp.goes (h : HungUp s) : s.child.ended = true ∨ Enabled s (.take .hup) := by
  rcases h.ends with hended | ⟨hm, hgoes⟩
  · exact Or.inl hended
  · cases hlive : s.child.ended with
    | true => exact Or.inl rfl
    | false =>
      exact Or.inr ⟨hm, Bool.eq_false_iff.mpr fun hs => hgoes (Or.inl hs), hlive⟩

theorem Invariant.hungUp (h : Invariant s) (hp : s.parent = .menu) (htie : s.tie = true)
    (hstop : s.child.stopped = true) (hexit : (SignalControl.choose s choice).parent = .exited) :
    HungUp (SignalControl.choose s choice) := by
  have hends (t : State) (htt : t.tie = true) (hts : t.child.stopped = true)
      (hlive : t.child.ended = false) : HungUp t.exit := by
    refine ⟨rfl, Or.inr ?_⟩
    rw [State.exit, if_pos ⟨htt, hts⟩]
    exact ⟨hup_pending hlive, not_halting_send_resume (send_ended.trans hlive) rfl⟩
  have hlive := (h.menu hp).1
  unfold SignalControl.choose at hexit ⊢
  split at hexit
  · exact absurd (hp.symm.trans hexit) (by decide)
  · exact absurd (hp.symm.trans hexit) (by decide)
  · cases hexit
  · refine hends _ htie ?_ (send_ended.trans hlive)
    exact (send_stopped (by decide)).trans hstop
  · exact absurd (hp.symm.trans hexit) (by decide)
  · exact hends s htie hstop hlive

theorem Invariant.abandoned (h : Invariant s) (hp : s.parent = .menu)
    (hfree : ¬ (s.tie = true ∧ s.child.stopped = true)) : Abandoned s.exit := by
  obtain ⟨hlive, hterm⟩ := h.menu hp
  have hhup := h.hangup (by rw [hp]; decide)
  have hchild : s.exit.child = s.child := by rw [State.exit, if_neg hfree]
  refine ⟨rfl, (exit_ended s).trans hlive, fun g hg => ?_⟩
  rw [hchild] at hg
  rintro (rfl | rfl)
  · exact hterm hg
  · exact hhup hg

/-- The child's handler never speaks of SIGSTOP. The child is stopped, or about to be, as long as
the last of the choices 1 and 2 is 1 and the kernel has not hung up. The parent that terminates a
stopped child waits for ever; a parent whose last choice of the two is not 1 can always go on. A
parent that ends without a SIGTERM leaves the child behind, unless the kernel hangs up; and that
ends a stopped child. -/
structure Controlled (tie : Bool) (es : List Event) : Prop where
  silent : Line.stopReceived ∉ ((machine tie).run es).out
  halting : ((machine tie).run es).child.ended = false →
    .hup ∉ ((machine tie).run es).child.pending →
    (Halting effect ((machine tie).run es).child ↔
      lastControl ((machine tie).run es).sent = some .stop)
  stuck : ((machine tie).run es).parent = .waiting → ((machine tie).run es).child.stopped = true →
    ((machine tie).run es).child.ended = false → ∀ e, ¬ (machine tie).Valid (es ++ [e])
  progress : ((machine tie).run es).parent = .waiting →
    lastControl ((machine tie).run es).sent ≠ some .stop →
    ∀ fs, (machine tie).Valid (es ++ fs) → ((machine tie).run (es ++ fs)).parent = .exited ∨
      (machine tie).Valid (es ++ fs ++ [.reap]) ∨ (machine tie).Valid (es ++ fs ++ [.take .term])
  left : ¬ (tie = true ∧ ((machine tie).run es).child.stopped = true) →
    ∀ fs, (machine tie).Valid (es ++ [.choose none] ++ fs) →
      ((machine tie).run (es ++ [.choose none] ++ fs)).child.ended = false
  hungUp : tie = true → ((machine tie).run es).child.stopped = true →
    ∀ choice fs, ((machine tie).run (es ++ [.choose choice])).parent = .exited →
      (machine tie).Valid (es ++ [.choose choice] ++ fs) →
        ((machine tie).run (es ++ [.choose choice] ++ fs)).child.ended = true ∨
          (machine tie).Valid (es ++ [.choose choice] ++ fs ++ [.take .hup])

theorem run_tie {es : List Event} (h : (machine tie).Valid es) :
    ((machine tie).run es).tie = tie := by
  refine Machine.invariant (I := fun s => s.tie = tie) rfl (fun s e hs _ => ?_) h
  cases e with
  | choose choice =>
    change (choose (s.print [.menu]) choice).tie = tie
    unfold SignalControl.choose
    split <;> exact hs
  | install | work | reap => exact hs
  | take g =>
    simp only [machine, next]
    split_ifs
    · cases g <;> exact hs
    · exact hs

theorem child_controlled {es : List Event} (h : (machine tie).Valid es) : Controlled tie es := by
  have hinv := run_invariant h
  have htie := run_tie h
  have hmenu : Invariant (((machine tie).run es).print [.menu]) := hinv.print (by decide)
  refine ⟨hinv.silent, hinv.halting, fun hp hstop hlive e hv => ?_, fun hp hlast fs hv => ?_,
    fun hfree fs hv => ?_, fun ht hstop choice fs hexit hv => ?_⟩
  · exact step_stuck hp hstop hlive ((Machine.valid_concat es e).mp hv).2
  · obtain ⟨hleft, hsent⟩ := after_parent (by rw [hp]; decide) hv
    have hlater := run_invariant hv
    cases hpos : ((machine tie).run (es ++ fs)).parent with
    | menu => exact absurd hpos hleft
    | exited => exact Or.inl rfl
    | waiting =>
      cases hlive : ((machine tie).run (es ++ fs)).child.ended with
      | true => exact Or.inr (Or.inl ((Machine.valid_concat _ _).mpr ⟨hv, hpos, hlive⟩))
      | false =>
        have hterm := hlater.waiting hpos hlive
        have hgoes : ¬ Halting effect ((machine tie).run (es ++ fs)).child := by
          rw [hlater.halting hlive (hlater.hangup (by rw [hpos]; decide)), hsent]
          exact hlast
        have hrun : ((machine tie).run (es ++ fs)).child.stopped = false :=
          Bool.eq_false_iff.mpr fun hs => hgoes (Or.inl hs)
        exact Or.inr (Or.inr ((Machine.valid_concat _ _).mpr ⟨hv, hterm, hrun, hlive⟩))
  · obtain ⟨-, hp⟩ := (Machine.valid_concat _ _).mp ((Machine.along_append _ _).mp hv).1
    have hstart : Abandoned ((machine tie).run (es ++ [.choose none])) := by
      rw [Machine.run_concat]
      exact hmenu.abandoned hp fun ⟨ht, hs⟩ => hfree ⟨htie.symm.trans ht, hs⟩
    exact (Machine.persists (P := Abandoned) hv hstart
      fun _ _ _ he hs => step_abandoned hs he).live
  · obtain ⟨-, hp⟩ := (Machine.valid_concat _ _).mp ((Machine.along_append _ _).mp hv).1
    have hstart : HungUp ((machine tie).run (es ++ [.choose choice])) := by
      rw [Machine.run_concat] at hexit ⊢
      exact hmenu.hungUp hp (htie.trans ht) hstop hexit
    have hlater := Machine.persists (P := HungUp) hv hstart fun _ _ _ he hs => step_hungUp hs he
    exact hlater.goes.imp_right fun he => (Machine.valid_concat _ _).mpr ⟨hv, he⟩

/-- Stopped by choice 1, and the parent waits for it after choice 3. -/
def stopped : List Event :=
  [.install, .install, .install, .work, .choose (some 1), .take .stop, .choose (some 3)]

theorem child_controlled_stopped :
    Controlled true stopped ∧ ((machine true).run stopped).parent = .waiting ∧
      ((machine true).run stopped).child.stopped = true ∧
      ((machine true).run stopped).child.ended = false :=
  ⟨child_controlled (by decide), by decide, by decide, by decide⟩

end SignalControl
