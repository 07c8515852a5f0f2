import LinuxLabs.Execution
import LinuxLabs.Signals

/-! # Two children in a group of their own (lab 09 of the processes)
Only `sleep` keeps the three processes in order, and the parent does not ignore SIGTTOU. So it
depends on when each `setpgid` comes whether the parent ends, waits, stops or kills itself. -/
namespace ProcessGroups

open Execution Signals

inductive Signal where
  | int
  | term
  | ttou
  deriving DecidableEq

def effect : Signal → Effect
  | .int | .term => .terminate
  | .ttou => .stop

/-- `sig_handler` is installed before the forks. -/
def caught : Signal → Bool
  | .int => true
  | .term | .ttou => false

inductive Child where
  | one
  | two
  deriving DecidableEq

/-- The group the program is started in, that of the first child, and any other. -/
inductive Group where
  | parent
  | child
  | other
  deriving DecidableEq

/-- The next call of the parent. What `getpgid(child1)` has returned is the argument. -/
inductive Pos where
  | lookInt
  | killInt (g : Group)
  | lookForeground
  | foreground (g : Group)
  | restore
  | lookTerm
  | killTerm (g : Group)
  | firstWait
  | secondWait
  | done
  deriving DecidableEq

/-- `terminal` is the foreground group of the terminal that is the standard input; with `none`
`tcsetpgrp` fails and stops nobody. `orphaned` tells that nobody outside of the parent's group
ties it to its session. -/
structure State where
  orphaned : Bool
  pos : Pos
  terminal : Option Group
  parent : Process Signal
  child : Child → Process Signal
  group : Child → Group
  tried : Child → Bool
  reaped : Child → Bool

/-- After the two forks. -/
def initial (orphaned : Bool) (terminal : Option Group) : State where
  orphaned := orphaned
  pos := .lookInt
  terminal := terminal
  parent := .start
  child := fun _ => .start
  group := fun _ => .parent
  tried := fun _ => false
  reaped := fun _ => false

/-- `join c` is the `setpgid` of a child, `wait c` a `wait` of the parent that takes `c`. -/
inductive Event where
  | join (c : Child)
  | step
  | take (c : Child) (g : Signal)
  | wait (c : Child)
  deriving DecidableEq

def Running (p : Process Signal) : Prop := p.stopped = false ∧ p.ended = false

instance (p : Process Signal) : Decidable (Running p) := inferInstanceAs (Decidable (_ ∧ _))

/-- Where the parent waits for nothing. -/
def Pos.Goes (pos : Pos) : Prop := pos ≠ .firstWait ∧ pos ≠ .secondWait ∧ pos ≠ .done

instance (pos : Pos) : Decidable pos.Goes := inferInstanceAs (Decidable (_ ∧ _ ∧ _))

def Enabled (s : State) : Event → Prop
  | .join c => Running (s.child c) ∧ s.tried c = false
  | .step => Running s.parent ∧ s.pos.Goes
  | .take c g => (s.child c).CanTake g
  | .wait c =>
    Running s.parent ∧ (s.pos = .firstWait ∨ s.pos = .secondWait) ∧
      (s.child c).ended = true ∧ s.reaped c = false

/-- The group of the first child exists until the child has been waited for. -/
def Founded (s : State) : Prop := s.group .one = .child ∧ s.reaped .one = false

instance (s : State) : Decidable (Founded s) := inferInstanceAs (Decidable (_ ∧ _))

/-- `setpgid(0, 0)` in the first child, `setpgid(0, child1)` in the second. -/
def setpgid (s : State) : Child → Group
  | .one => .child
  | .two => if Founded s then .child else s.group .two

/-- `kill(-g, sig)`; a signal to oneself is taken before the call returns. -/
def State.kill (s : State) (g : Group) (sig : Signal) : State :=
  { s with
    parent :=
      if g = .parent then (s.parent.send effect sig).take effect (caught sig) sig else s.parent
    child := fun c => if s.group c = g then (s.child c).send effect sig else s.child c }

/-- `tcsetpgrp(STDIN_FILENO, g)`, which stops the group of a caller that is in the background; in
an orphaned group it fails. -/
def State.tcsetpgrp (s : State) (g : Group) (pos : Pos) : State :=
  match s.terminal with
  | none => { s with pos := pos }
  | some .parent => { s with terminal := some g, pos := pos }
  | some _ => if s.orphaned then { s with pos := pos } else s.kill .parent .ttou

/-- `tcsetpgrp` returns. -/
def Returns (s : State) : Prop :=
  s.terminal = none ∨ s.terminal = some .parent ∨ s.orphaned = true

def step (s : State) : State :=
  match s.pos with
  | .lookInt => { s with pos := .killInt (s.group .one) }
  | .killInt g => { s.kill g .int with pos := .lookForeground }
  | .lookForeground => { s with pos := .foreground (s.group .one) }
  | .foreground g => s.tcsetpgrp g .restore
  | .restore => s.tcsetpgrp .parent .lookTerm
  | .lookTerm => { s with pos := .killTerm (s.group .one) }
  | .killTerm g => { s.kill g .term with pos := .firstWait }
  | .firstWait | .secondWait | .done => s

def next (s : State) : Event → State
  | .join c =>
    { s with
      group := Function.update s.group c (setpgid s c)
      tried := Function.update s.tried c true }
  | .step => step s
  | .take c g =>
    { s with child := Function.update s.child c ((s.child c).take effect (caught g) g) }
  | .wait c =>
    { s with
      reaped := Function.update s.reaped c true
      pos := if s.pos = .firstWait then .secondWait else .done }

def machine (orphaned : Bool) (terminal : Option Group) : Machine State Event :=
  ⟨initial orphaned terminal, Enabled, next⟩

instance (orphaned : Bool) (terminal : Option Group) (s : State) (e : Event) :
    Decidable ((machine orphaned terminal).Enabled s e) := by
  simp only [machine]
  casesm Event <;> simp only [Enabled] <;> infer_instance

/-- Nothing more can happen. -/
def Complete (s : State) : Prop := ∀ e, ¬ Enabled s e

/-- The second child finds the group of the first, `tcsetpgrp` returns, and the parent's SIGTERM is
for a group that both children are in. -/
def Good (s : State) : Event → Prop
  | .join .two => Founded s
  | .step =>
    match s.pos with
    | .foreground _ | .restore => Returns s
    | .killTerm g => g = .child ∧ s.group .two = .child
    | _ => True
  | _ => True

/-! ## Every run is finite -/

def Pos.left : Pos → ℕ
  | .lookInt => 9
  | .killInt _ => 8
  | .lookForeground => 7
  | .foreground _ => 6
  | .restore => 5
  | .lookTerm => 4
  | .killTerm _ => 3
  | .firstWait => 2
  | .secondWait => 1
  | .done => 0

/-- What the parent has left to do. -/
def ahead (s : State) : ℕ := if Running s.parent then s.pos.left else 0

/-- Each call of the parent may leave each child with one signal more. -/
def work (s : State) : ℕ :=
  3 * ahead s + ((if s.tried .one then 0 else 1) + (if s.tried .two then 0 else 1)) +
    ((s.child .one).pending.card + (s.child .two).pending.card)

variable {s : State} {e : Event} {c : Child} {g : Group} {sig : Signal} {terminal : Option Group}
  {pos : Pos} {orphaned : Bool}

theorem card_kill (s : State) (g : Group) (sig : Signal) (c : Child) :
    ((s.kill g sig).child c).pending.card ≤ (s.child c).pending.card + 1 := by
  simp only [State.kill]
  split_ifs
  · exact card_send
  · exact Nat.le_succ _

/-- The two things `tcsetpgrp` can do: it returns, or the parent is stopped. -/
theorem tcsetpgrp_cases (s : State) (g : Group) (pos : Pos) :
    (Returns s ∧ ∃ terminal, s.tcsetpgrp g pos = { s with terminal := terminal, pos := pos }) ∨
    ¬ Returns s ∧ s.tcsetpgrp g pos = s.kill .parent .ttou := by
  unfold State.tcsetpgrp Returns
  cases s.terminal with
  | none => exact Or.inl ⟨Or.inl rfl, none, rfl⟩
  | some fg =>
    cases fg with
    | parent => exact Or.inl ⟨Or.inr (Or.inl rfl), some g, rfl⟩
    | child | other =>
      cases s.orphaned with
      | true => exact Or.inl ⟨Or.inr (Or.inr rfl), _, rfl⟩
      | false => exact Or.inr ⟨by simp, rfl⟩

/-- SIGTTOU stops the parent. -/
theorem kill_ttou (s : State) :
    (s.kill .parent .ttou).parent.stopped = true := by
  simp [State.kill, Process.take, caught, effect]

theorem ahead_eq (h : Running s.parent) : ahead s = s.pos.left := if_pos h

theorem ahead_le (s : State) : ahead s ≤ s.pos.left := by
  unfold ahead
  split_ifs
  · exact Nat.le_refl _
  · exact Nat.zero_le _

theorem ahead_stopped (h : s.parent.stopped = true) : ahead s = 0 :=
  if_neg fun hr => Bool.noConfusion (h.symm.trans hr.1)

theorem ahead_step (h : Running s.parent) (hg : s.pos.Goes) : ahead (step s) < ahead s := by
  have htcsetpgrp : ∀ (g : Group) (pos : Pos) (n : ℕ), pos.left < n →
      ahead (s.tcsetpgrp g pos) < n := by
    intro g pos n hlt
    rcases tcsetpgrp_cases s g pos with ⟨-, terminal, heq⟩ | ⟨-, heq⟩
    · rw [heq]
      exact (ahead_le _).trans_lt hlt
    · rw [heq, ahead_stopped (kill_ttou s)]
      omega
  obtain ⟨hfirst, hsecond, hdone⟩ := hg
  rw [ahead_eq h]
  unfold step
  cases hpos : s.pos with
  | lookInt | killInt | lookForeground | lookTerm | killTerm =>
    exact (ahead_le _).trans_lt (by simp [Pos.left])
  | foreground | restore => exact htcsetpgrp _ _ _ (by simp [Pos.left])
  | firstWait => exact absurd hpos hfirst
  | secondWait => exact absurd hpos hsecond
  | done => exact absurd hpos hdone

/-- What a call of the parent does to the children: it may send a signal to a group. -/
theorem step_cases (s : State) :
    ((step s).child = s.child ∨ ∃ g sig, (step s).child = (s.kill g sig).child) ∧
      (step s).group = s.group ∧ (step s).tried = s.tried ∧ (step s).reaped = s.reaped := by
  have htcsetpgrp : ∀ (g : Group) (pos : Pos),
      ((s.tcsetpgrp g pos).child = s.child ∨
        ∃ g' sig, (s.tcsetpgrp g pos).child = (s.kill g' sig).child) ∧
      (s.tcsetpgrp g pos).group = s.group ∧ (s.tcsetpgrp g pos).tried = s.tried ∧
      (s.tcsetpgrp g pos).reaped = s.reaped := by
    intro g pos
    rcases tcsetpgrp_cases s g pos with ⟨-, terminal, heq⟩ | ⟨-, heq⟩
    · rw [heq]
      exact ⟨Or.inl rfl, rfl, rfl, rfl⟩
    · rw [heq]
      exact ⟨Or.inr ⟨.parent, .ttou, rfl⟩, rfl, rfl, rfl⟩
  unfold step
  cases s.pos with
  | lookInt | lookForeground | lookTerm | firstWait | secondWait | done =>
    exact ⟨Or.inl rfl, rfl, rfl, rfl⟩
  | killInt g => exact ⟨Or.inr ⟨g, .int, rfl⟩, rfl, rfl, rfl⟩
  | killTerm g => exact ⟨Or.inr ⟨g, .term, rfl⟩, rfl, rfl, rfl⟩
  | foreground | restore => exact htcsetpgrp _ _

theorem card_step (s : State) (c : Child) :
    ((step s).child c).pending.card ≤ (s.child c).pending.card + 1 := by
  obtain ⟨hchild | ⟨g, sig, hchild⟩, -⟩ := step_cases s
  · rw [hchild]
    exact Nat.le_succ _
  · rw [hchild]
    exact card_kill s g sig c

theorem work_step (he : Enabled s e) : work (next s e) < work s := by
  cases e with
  | join c =>
    obtain ⟨-, htried⟩ := he
    have hahead : ahead (next s (.join c)) = ahead s := rfl
    unfold work
    rw [hahead]
    cases c <;> simp [next, htried]
  | step =>
    have hahead := ahead_step he.1 he.2
    have hone := card_step s .one
    have htwo := card_step s .two
    simp only [work, next, (step_cases s).2.2.1]
    omega
  | take c sig =>
    have hcard : ((s.child c).take effect (caught sig) sig).pending.card + 1 =
        (s.child c).pending.card := card_take he
    have hahead : ahead (next s (.take c sig)) = ahead s := rfl
    have htried : (next s (.take c sig)).tried = s.tried := rfl
    unfold work
    rw [hahead, htried]
    cases c <;> simp [next] <;> omega
  | wait c =>
    obtain ⟨hrun, hpos, -⟩ := he
    have hahead : ahead (next s (.wait c)) < ahead s := by
      rw [ahead_eq hrun]
      refine (ahead_le _).trans_lt ?_
      rcases hpos with hpos | hpos <;> simp [next, hpos, Pos.left]
    have htried : (next s (.wait c)).tried = s.tried := rfl
    have hchild : (next s (.wait c)).child = s.child := rfl
    unfold work
    rw [htried, hchild]
    omega

theorem run_bounded {es : List Event} (h : (machine orphaned terminal).Valid es) :
    es.length ≤ 29 := by
  have hfree : ∀ s e, True → (machine orphaned terminal).Enabled s e → false = false →
      work ((machine orphaned terminal).next s e) < work s :=
    fun s e _ he _ => work_step (s := s) (e := e) he
  have hle := Machine.amortized (fun _ => True) work (fun _ => false) 0 trivial
    (fun _ _ _ _ => trivial) hfree (fun _ _ _ _ hp => Bool.noConfusion hp) h
  have hinitial : work (machine orphaned terminal).initial = 29 := by
    simp [machine, initial, work, ahead, Running, Process.start, Pos.left]
  have hcount : es.countP (fun _ => !false) = es.length := List.countP_eq_length.mpr fun _ _ => rfl
  rw [hcount, hinitial] at hle
  omega

/-! ## The signals -/

/-- A child that SIGTERM has reached. -/
def Doomed (p : Process Signal) : Prop := p.ended = true ∨ Signal.term ∈ p.pending

theorem doomed_send {p : Process Signal} :
    Doomed (p.send effect sig) ↔ Doomed p ∨ sig = .term := by
  unfold Doomed
  rw [send_ended]
  constructor
  · rintro (he | hm)
    · exact Or.inl (Or.inl he)
    · rcases of_mem_send hm with heq | hm
      · exact Or.inr heq.symm
      · exact Or.inl (Or.inr hm)
  · rintro ((he | hm) | rfl)
    · exact Or.inl he
    · exact Or.inr (mem_send_of_mem hm (by decide) (by decide))
    · cases he : p.ended with
      | true => exact Or.inl rfl
      | false => exact Or.inr (mem_send he)

theorem doomed_take {p : Process Signal} (ht : p.CanTake sig) :
    Doomed (p.take effect (caught sig) sig) ↔ Doomed p := by
  unfold Doomed
  rw [take_ended, mem_take]
  cases sig with
  | term =>
    refine iff_of_true (Or.inl (Or.inr ⟨rfl, rfl⟩)) (Or.inr ht.1)
  | int | ttou => simp [caught, effect]

theorem kill_child (s : State) (g : Group) (sig : Signal) (c : Child) :
    Doomed ((s.kill g sig).child c) ↔ Doomed (s.child c) ∨ s.group c = g ∧ sig = .term := by
  simp only [State.kill]
  split_ifs with hg
  · rw [doomed_send]
    simp [hg]
  · simp [hg]

/-- SIGTTOU stops the parent and SIGTERM ends it, if they are for its own group. -/
theorem kill_parent (h : Running s.parent) (g : Group) (sig : Signal) :
    ((s.kill g sig).parent.stopped = true ↔ g = .parent ∧ sig = .ttou) ∧
      ((s.kill g sig).parent.ended = true ↔ g = .parent ∧ sig = .term) := by
  obtain ⟨hstop, hlive⟩ := h
  by_cases hg : g = .parent
  · cases sig <;>
      simp [State.kill, hg, Process.take, Process.send, caught, effect, hstop, hlive]
  · simp [State.kill, hg, hstop, hlive]

theorem kill_int (h : Running s.parent) (g : Group) : Running (s.kill g .int).parent := by
  obtain ⟨hstopped, hended⟩ := kill_parent h g .int
  refine ⟨Bool.eq_false_iff.mpr fun hs => ?_, Bool.eq_false_iff.mpr fun he => ?_⟩
  · exact absurd (hstopped.mp hs).2 (by decide)
  · exact absurd (hended.mp he).2 (by decide)

/-! ## What is reached -/

/-- How many children the parent has waited for. -/
def Pos.waited : Pos → ℕ
  | .secondWait => 1
  | .done => 2
  | _ => 0

structure Invariant (s : State) : Prop where
  groups : ∀ c, s.group c = .parent ∨ s.group c = .child
  untried : ∀ c, s.tried c = false → s.group c = .parent
  looked : ∀ g, s.pos = .killTerm g → g = .parent ∨ g = .child ∧ s.group .one = .child
  early : s.pos.Goes → ∀ c, ¬ Doomed (s.child c)
  signalled : ∀ c, Doomed (s.child c) → s.parent.ended = true ∨ s.group c = .child
  first : ¬ s.pos.Goes → s.parent.ended = true ∨ Doomed (s.child .one)
  running : s.parent.stopped = false → ∀ c, ¬ Halting effect (s.child c)
  reaped : ∀ c, s.reaped c = true → (s.child c).ended = true
  waited : (s.reaped .one).toNat + (s.reaped .two).toNat = s.pos.waited
  later : s.pos.waited ≠ 0 → Running s.parent

theorem join_group (s : State) (c d : Child) (hd : s.group d = .child) :
    (next s (.join c)).group d = .child := by
  by_cases hdc : d = c
  · subst hdc
    cases d <;> simp [next, setpgid, hd]
  · simp [next, hdc, hd]

theorem join_groups (s : State) (c d : Child) (hd : s.group d = .parent ∨ s.group d = .child) :
    (next s (.join c)).group d = .parent ∨ (next s (.join c)).group d = .child := by
  by_cases hdc : d = c
  · subst hdc
    cases d with
    | one => simp [next, setpgid]
    | two =>
      simp only [next, setpgid, Function.update_self]
      split_ifs
      · exact Or.inr rfl
      · exact hd
  · simpa [next, hdc] using hd

theorem Invariant.join (h : Invariant s) (c : Child) : Invariant (next s (.join c)) := by
  refine ⟨fun d => join_groups s c d (h.groups d), fun d hd => ?_, fun g hg => ?_, h.early,
    fun d hd => ?_, h.first, h.running, h.reaped, h.waited, h.later⟩
  · by_cases hdc : d = c
    · subst hdc
      exact Bool.noConfusion ((Function.update_self ..).symm.trans hd)
    · have hd : s.tried d = false := by simpa [next, hdc] using hd
      simpa [next, hdc] using h.untried d hd
  · exact (h.looked g hg).imp_right fun hc => ⟨hc.1, join_group s c .one hc.2⟩
  · exact (h.signalled d hd).imp_right (join_group s c d)

theorem take_doomed (ht : (s.child c).CanTake sig) (d : Child) :
    Doomed ((next s (.take c sig)).child d) ↔ Doomed (s.child d) := by
  by_cases hdc : d = c
  · subst hdc
    simp only [next, Function.update_self]
    exact doomed_take ht
  · simp only [next, Function.update_of_ne hdc]

theorem take_halting (ht : (s.child c).CanTake sig) (d : Child) :
    Halting effect ((next s (.take c sig)).child d) ↔ Halting effect (s.child d) := by
  by_cases hdc : d = c
  · subst hdc
    simp only [next, Function.update_self]
    apply halting_take ht
    cases sig <;> decide
  · simp only [next, Function.update_of_ne hdc]

theorem Invariant.take (h : Invariant s) (ht : (s.child c).CanTake sig) :
    Invariant (next s (.take c sig)) := by
  refine ⟨h.groups, h.untried, h.looked, fun hg d => ?_, fun d hd => ?_, fun hg => ?_,
    fun hs d => ?_, fun d hd => ?_, h.waited, h.later⟩
  · rw [take_doomed ht]
    exact h.early hg d
  · exact h.signalled d ((take_doomed ht d).mp hd)
  · exact (h.first hg).imp_right (take_doomed ht .one).mpr
  · rw [take_halting ht]
    exact h.running hs d
  · have hended := h.reaped d hd
    have hdc : d ≠ c := by
      rintro rfl
      exact Bool.noConfusion (ht.2.2.symm.trans hended)
    simpa [next, hdc] using hended

theorem Invariant.wait (h : Invariant s) (he : Enabled s (.wait c)) :
    Invariant (next s (.wait c)) := by
  obtain ⟨hrun, hpos, hended, hreaped⟩ := he
  have hwaits : ¬ s.pos.Goes := by
    rintro ⟨hfirst, hsecond, -⟩
    exact hpos.elim hfirst hsecond
  have hcount := h.waited
  refine ⟨h.groups, h.untried, fun g hg => ?_, fun hg => ?_, h.signalled,
    fun _ => h.first hwaits, h.running, fun d hd => ?_, ?_, fun _ => hrun⟩
  · rcases hpos with hpos | hpos <;> simp [next, hpos] at hg
  · rcases hpos with hpos | hpos <;> simp [next, hpos, Pos.Goes] at hg
  · by_cases hdc : d = c
    · rwa [hdc]
    · exact h.reaped d (by simpa [next, hdc] using hd)
  · rcases hpos with hpos | hpos <;> rw [hpos] at hcount <;>
      cases c <;> simp [next, hpos, hreaped, Pos.waited] at hcount ⊢ <;> simp [hcount]

theorem waited_of_goes (hg : pos.Goes) : pos.waited = 0 := by
  obtain ⟨-, hsecond, hdone⟩ := hg
  cases pos with
  | secondWait => exact absurd rfl hsecond
  | done => exact absurd rfl hdone
  | _ => rfl

theorem Invariant.none_waited (h : Invariant s) (hg : s.pos.Goes) :
    (s.reaped .one).toNat + (s.reaped .two).toNat = 0 :=
  h.waited.trans (waited_of_goes hg)

theorem kill_ended (s : State) (g : Group) (sig : Signal) (c : Child) :
    ((s.kill g sig).child c).ended = (s.child c).ended := by
  simp only [State.kill]
  split_ifs
  · exact send_ended
  · rfl

theorem kill_halting (s : State) (g : Group) (hs : sig ≠ .ttou) (c : Child) :
    Halting effect ((s.kill g sig).child c) ↔ Halting effect (s.child c) := by
  simp only [State.kill]
  split_ifs
  · cases sig with
    | ttou => exact absurd rfl hs
    | int | term => exact halting_send (by decide) (by decide)
  · exact Iff.rfl

/-- A call that sends nothing. -/
theorem Invariant.move (h : Invariant s) (hg : s.pos.Goes) (hpos : pos.Goes)
    (hlook : ∀ g, pos = .killTerm g → g = .parent ∨ g = .child ∧ s.group .one = .child)
    (terminal : Option Group) : Invariant { s with pos := pos, terminal := terminal } := by
  refine ⟨h.groups, h.untried, hlook, fun _ => h.early hg, h.signalled,
    fun hn => absurd hpos hn, h.running, h.reaped, ?_, fun hw => absurd (waited_of_goes hpos) hw⟩
  rw [waited_of_goes hpos]
  exact h.none_waited hg

/-- A call that sends something else than SIGTERM. -/
theorem Invariant.signal (h : Invariant s) (hrun : Running s.parent) (hg : s.pos.Goes)
    (hpos : pos.Goes) (hlook : ∀ g, pos = .killTerm g → g = .parent ∨ g = .child ∧
      s.group .one = .child) (hterm : sig ≠ .term) (hown : sig = .ttou → g = .parent) :
    Invariant { s.kill g sig with pos := pos } := by
  have hdoomed : ∀ c, ¬ Doomed ((s.kill g sig).child c) := by
    intro c hc
    rcases (kill_child s g sig c).mp hc with hc | ⟨-, hc⟩
    · exact h.early hg c hc
    · exact hterm hc
  refine ⟨h.groups, h.untried, hlook, fun _ => hdoomed, fun c hc => absurd hc (hdoomed c),
    fun hn => absurd hpos hn, fun hs c => ?_, fun c hc => ?_, ?_,
    fun hw => absurd (waited_of_goes hpos) hw⟩
  · have hstop : sig ≠ .ttou := by
      intro hsig
      have hstopped := (kill_parent hrun g sig).1.mpr ⟨hown hsig, hsig⟩
      exact Bool.noConfusion (hstopped.symm.trans hs)
    rw [kill_halting s g hstop]
    exact h.running hrun.1 c
  · rw [kill_ended]
    exact h.reaped c hc
  · rw [waited_of_goes hpos]
    exact h.none_waited hg

/-- SIGTERM. -/
theorem Invariant.terminate (h : Invariant s) (hrun : Running s.parent)
    (hpos : s.pos = .killTerm g) : Invariant { s.kill g .term with pos := .firstWait } := by
  have hgoes : s.pos.Goes := by simp [hpos, Pos.Goes]
  have hended : g = .parent → (s.kill g .term).parent.ended = true := fun hg =>
    (kill_parent hrun g .term).2.mpr ⟨hg, rfl⟩
  refine ⟨h.groups, h.untried, nofun, fun hg => absurd rfl hg.1, fun c hc => ?_, fun _ => ?_,
    fun _ c => ?_, fun c hc => ?_, h.none_waited hgoes, fun hw => absurd rfl hw⟩
  · rcases (kill_child s g .term c).mp hc with hc | ⟨hc, -⟩
    · exact absurd hc (h.early hgoes c)
    · rcases h.groups c with hparent | hchild
      · exact Or.inl (hended (hc.symm.trans hparent))
      · exact Or.inr hchild
  · rcases h.looked g hpos with hg | ⟨hg, hone⟩
    · exact Or.inl (hended hg)
    · exact Or.inr ((kill_child s g .term .one).mpr (Or.inr ⟨hone.trans hg.symm, rfl⟩))
  · rw [kill_halting s g (by decide)]
    exact h.running hrun.1 c
  · rw [kill_ended]
    exact h.reaped c hc

theorem Invariant.tcsetpgrp (h : Invariant s) (hrun : Running s.parent) (hg : s.pos.Goes)
    (hpos : pos.Goes) (hlook : ∀ g, pos ≠ .killTerm g) : Invariant (s.tcsetpgrp g pos) := by
  rcases tcsetpgrp_cases s g pos with ⟨-, terminal, heq⟩ | ⟨-, heq⟩
  · rw [heq]
    exact h.move hg hpos (fun g hk => absurd hk (hlook g)) terminal
  · have hstop : Invariant { s.kill .parent .ttou with pos := s.pos } :=
      h.signal hrun hg hg h.looked (by decide) fun _ => rfl
    rw [heq]
    exact hstop

theorem Invariant.step (h : Invariant s) (hrun : Running s.parent) (hg : s.pos.Goes) :
    Invariant (step s) := by
  have hone := h.groups .one
  unfold ProcessGroups.step
  cases hpos : s.pos with
  | lookInt | lookForeground =>
    exact h.move hg (by simp [Pos.Goes]) (by simp) s.terminal
  | lookTerm =>
    refine h.move hg (by simp [Pos.Goes]) ?_ s.terminal
    rintro g hk
    obtain rfl := Pos.killTerm.inj hk
    exact hone.imp_right fun hc => ⟨hc, hc⟩
  | killInt g =>
    have hint : Invariant { s.kill g .int with pos := .lookForeground } :=
      h.signal hrun hg (by simp [Pos.Goes]) (by simp) (by decide) (by simp)
    exact hint
  | killTerm g => exact h.terminate hrun hpos
  | foreground | restore => exact h.tcsetpgrp hrun hg (by simp [Pos.Goes]) (by simp)
  | firstWait => exact absurd hpos hg.1
  | secondWait => exact absurd hpos hg.2.1
  | done => exact absurd hpos hg.2.2

theorem step_invariant (h : Invariant s) (he : Enabled s e) : Invariant (next s e) := by
  cases e with
  | join c => exact h.join c
  | step => exact h.step he.1 he.2
  | take c sig => exact h.take he
  | wait c => exact h.wait he

theorem initial_invariant (orphaned : Bool) (terminal : Option Group) :
    Invariant (initial orphaned terminal) := by
  refine ⟨fun _ => Or.inl rfl, fun _ _ => rfl, nofun, fun _ _ => ?_, fun _ hd => ?_, fun hn => ?_,
    fun _ _ => not_halting_start, nofun, rfl, fun hw => absurd rfl hw⟩
  · simp [initial, Doomed, Process.start]
  · simp [initial, Doomed, Process.start] at hd
  · simp [initial, Pos.Goes] at hn

/-! ## Which runs come to the end -/

/-- On the way to the end: the parent runs, the second child is in the group if it has tried, and
has got the SIGTERM if that was sent. -/
structure OnCourse (s : State) : Prop where
  running : Running s.parent
  joined : s.tried .two = true → s.group .two = .child
  doomed : ¬ s.pos.Goes → Doomed (s.child .two)

theorem onCourse_join (h : Invariant s) (he : Enabled s (.join c)) :
    OnCourse (next s (.join c)) ↔ OnCourse s ∧ Good s (.join c) := by
  have htried := he.2
  cases c with
  | one =>
    constructor
    · intro ho
      exact ⟨⟨ho.running, ho.joined, ho.doomed⟩, trivial⟩
    · rintro ⟨ho, -⟩
      exact ⟨ho.running, ho.joined, ho.doomed⟩
  | two =>
    constructor
    · intro ho
      have hjoined := ho.joined (by simp [next])
      refine ⟨⟨ho.running, fun ht => Bool.noConfusion (htried.symm.trans ht), ho.doomed⟩, ?_⟩
      by_contra hf
      have hf : ¬ Founded s := hf
      simp [next, setpgid, if_neg hf, h.untried .two htried] at hjoined
    · rintro ⟨ho, hf⟩
      refine ⟨ho.running, fun _ => ?_, ho.doomed⟩
      have hf : Founded s := hf
      simp [next, setpgid, if_pos hf]

/-- Between two calls that send nothing to the end, only the parent matters. -/
theorem onCourse_iff (hg : s.pos.Goes) :
    OnCourse s ↔ Running s.parent ∧ (s.tried .two = true → s.group .two = .child) :=
  ⟨fun ho => ⟨ho.running, ho.joined⟩, fun ⟨hrun, hj⟩ => ⟨hrun, hj, fun hn => absurd hg hn⟩⟩

theorem onCourse_tcsetpgrp (hg : s.pos.Goes) (hpos : pos.Goes) :
    OnCourse (s.tcsetpgrp g pos) ↔
      OnCourse s ∧ Returns s := by
  rcases tcsetpgrp_cases s g pos with ⟨hterm, terminal, heq⟩ | ⟨hterm, heq⟩
  · rw [heq, onCourse_iff hg, onCourse_iff hpos, and_iff_left hterm]
  · rw [heq]
    refine iff_of_false (fun ho => ?_) fun ho => hterm ho.2
    exact Bool.noConfusion ((kill_ttou s).symm.trans ho.running.1)

theorem onCourse_terminate (h : Invariant s) (hrun : Running s.parent)
    (hpos : s.pos = .killTerm g) :
    OnCourse { s.kill g .term with pos := .firstWait } ↔
      OnCourse s ∧ g = .child ∧ s.group .two = .child := by
  have hg : s.pos.Goes := by simp [hpos, Pos.Goes]
  obtain ⟨hstopped, hended⟩ := kill_parent hrun g .term
  constructor
  · intro ho
    have hne : g ≠ .parent := fun heq =>
      Bool.noConfusion ((hended.mpr ⟨heq, rfl⟩).symm.trans ho.running.2)
    have hchild : g = .child := ((h.looked g hpos).resolve_left hne).1
    have hdoomed := (kill_child s g .term .two).mp (ho.doomed (by simp [Pos.Goes]))
    have htwo := (hdoomed.resolve_left (h.early hg .two)).1
    exact ⟨(onCourse_iff hg).mpr ⟨hrun, ho.joined⟩, hchild, htwo.trans hchild⟩
  · rintro ⟨ho, rfl, htwo⟩
    have hruns : Running (s.kill .child .term).parent := by
      refine ⟨Bool.eq_false_iff.mpr fun hs => ?_, Bool.eq_false_iff.mpr fun he => ?_⟩
      · exact absurd (hstopped.mp hs).1 (by decide)
      · exact absurd (hended.mp he).1 (by decide)
    exact ⟨hruns, ho.joined, fun _ => (kill_child s .child .term .two).mpr (Or.inr ⟨htwo, rfl⟩)⟩

theorem onCourse_step (h : Invariant s) (hrun : Running s.parent) (hg : s.pos.Goes) :
    OnCourse (step s) ↔ OnCourse s ∧ Good s .step := by
  unfold step Good
  dsimp only
  cases hpos : s.pos with
  | lookInt | lookForeground | lookTerm =>
    rw [onCourse_iff hg, onCourse_iff (by simp [Pos.Goes]), and_true]
  | killInt g =>
    have hruns : Running (s.kill g .int).parent := kill_int hrun g
    rw [onCourse_iff hg, onCourse_iff (by simp [Pos.Goes]), and_true]
    exact and_congr_left fun _ => iff_of_true hruns hrun
  | killTerm g => exact onCourse_terminate h hrun hpos
  | foreground | restore => exact onCourse_tcsetpgrp hg (by simp [Pos.Goes])
  | firstWait => exact absurd hpos hg.1
  | secondWait => exact absurd hpos hg.2.1
  | done => exact absurd hpos hg.2.2

theorem onCourse_next (h : Invariant s) (he : Enabled s e) :
    OnCourse (next s e) ↔ OnCourse s ∧ Good s e := by
  cases e with
  | join c => exact onCourse_join h he
  | step => exact onCourse_step h he.1 he.2
  | take c sig =>
    constructor
    · intro ho
      exact ⟨⟨ho.running, ho.joined, fun hn => (take_doomed he .two).mp (ho.doomed hn)⟩, trivial⟩
    · rintro ⟨ho, -⟩
      exact ⟨ho.running, ho.joined, fun hn => (take_doomed he .two).mpr (ho.doomed hn)⟩
  | wait c =>
    obtain ⟨-, hpos, -⟩ := he
    have hwaits : ¬ s.pos.Goes ∧ ¬ (next s (.wait c)).pos.Goes := by
      rcases hpos with hpos | hpos <;> simp [next, hpos, Pos.Goes]
    constructor
    · intro ho
      exact ⟨⟨ho.running, ho.joined, fun _ => ho.doomed hwaits.2⟩, trivial⟩
    · rintro ⟨ho, -⟩
      exact ⟨ho.running, ho.joined, fun _ => ho.doomed hwaits.1⟩

/-- A child that SIGTERM has reached ends, if it is not stopped. -/
theorem ended_of_complete (hinv : Invariant s) (hrun : Running s.parent) (hc : Complete s)
    (hd : Doomed (s.child c)) : (s.child c).ended = true := by
  cases hlive : (s.child c).ended with
  | true => rfl
  | false =>
    have hterm := hd.resolve_left (by rw [hlive]; decide)
    have hgoes := hinv.running hrun.1 c
    have hstop : (s.child c).stopped = false := Bool.eq_false_iff.mpr fun hs => hgoes (Or.inl hs)
    exact absurd ⟨hterm, hstop, hlive⟩ (hc (.take c .term))

/-- A parent that runs to where nothing more can happen short of the end has taken the first child
and waits for the second. -/
theorem Invariant.waits (h : Invariant s) (hrun : Running s.parent) (hc : Complete s)
    (hd : s.pos ≠ .done) :
    s.pos = .secondWait ∧ (s.child .two).ended = false ∧ s.reaped .two = false := by
  have hwaits : ¬ s.pos.Goes := fun hg => hc .step ⟨hrun, hg⟩
  have hpos : s.pos = .firstWait ∨ s.pos = .secondWait := by
    by_contra hp
    obtain ⟨hfirst, hsecond⟩ := not_or.mp hp
    exact hwaits ⟨hfirst, hsecond, hd⟩
  have hone : (s.child .one).ended = true :=
    ended_of_complete h hrun hc ((h.first hwaits).resolve_left (by rw [hrun.2]; decide))
  have htaken : s.reaped .one = true :=
    Bool.eq_true_of_not_eq_false fun hr => hc (.wait .one) ⟨hrun, hpos, hone, hr⟩
  have hcount := h.waited
  rw [htaken] at hcount
  have huntaken : s.reaped .two = false := by
    cases hr : s.reaped .two with
    | false => rfl
    | true =>
      rw [hr] at hcount
      rcases hpos with hpos | hpos <;> simp [hpos, Pos.waited] at hcount
  refine ⟨hpos.resolve_left fun hfirst => ?_, ?_, huntaken⟩
  · rw [hfirst, huntaken] at hcount
    simp [Pos.waited] at hcount
  · exact Bool.eq_false_iff.mpr fun he => hc (.wait .two) ⟨hrun, hpos, he, huntaken⟩

theorem OnCourse.done (h : OnCourse s) (hinv : Invariant s) (hc : Complete s) : s.pos = .done := by
  by_contra hd
  obtain ⟨hpos, hlive, -⟩ := hinv.waits h.running hc hd
  have hdoomed := h.doomed (by simp [hpos, Pos.Goes])
  exact Bool.noConfusion (hlive.symm.trans (ended_of_complete hinv h.running hc hdoomed))

theorem Invariant.onCourse (h : Invariant s) (hd : s.pos = .done) : OnCourse s := by
  have hrun : Running s.parent := h.later (by simp [hd, Pos.waited])
  have hcount := h.waited
  have hreaped : s.reaped .two = true := by
    cases hr : s.reaped .two with
    | true => rfl
    | false =>
      rw [hr, hd] at hcount
      cases hone : s.reaped .one <;> rw [hone] at hcount <;> simp [Pos.waited] at hcount
  have hdoomed : Doomed (s.child .two) := Or.inl (h.reaped .two hreaped)
  refine ⟨hrun, fun _ => ?_, fun _ => hdoomed⟩
  exact (h.signalled .two hdoomed).resolve_left (by rw [hrun.2]; decide)

/-- How a run ends that does not come to the end: the parent is stopped by SIGTTOU in one of its
calls of `tcsetpgrp`, has sent the SIGTERM to itself, or waits for the second child, which got
none. -/
inductive Halted (s : State) : Prop
  | stopped (background : ¬ Returns s) (call : s.pos = .restore ∨ ∃ g, s.pos = .foreground g)
      (parent : s.parent.stopped = true)
  | ended (parent : s.parent.ended = true) (call : s.pos = .firstWait)
  | waits (parent : Running s.parent) (call : s.pos = .secondWait)
      (child : (s.child .two).ended = false) (untaken : s.reaped .two = false)

/-- Where the parent is when it does not run any more. -/
structure Stays (s : State) : Prop where
  stopped : s.parent.stopped = true →
    ¬ Returns s ∧ (s.pos = .restore ∨ ∃ g, s.pos = .foreground g)
  ended : s.parent.ended = true → s.pos = .firstWait

theorem Stays.running (hrun : Running s.parent) : Stays s :=
  ⟨fun hs => Bool.noConfusion (hrun.1.symm.trans hs),
    fun he => Bool.noConfusion (hrun.2.symm.trans he)⟩

theorem stays_tcsetpgrp (hrun : Running s.parent)
    (hpos : s.pos = .restore ∨ ∃ g, s.pos = .foreground g) : Stays (s.tcsetpgrp g pos) := by
  rcases tcsetpgrp_cases s g pos with ⟨-, terminal, heq⟩ | ⟨hback, heq⟩
  · rw [heq]
    exact .running hrun
  · rw [heq]
    refine ⟨fun _ => ⟨hback, hpos⟩, fun he => ?_⟩
    exact absurd ((kill_parent hrun .parent .ttou).2.mp he).2 (by decide)

theorem stays_step (hrun : Running s.parent) (hg : s.pos.Goes) : Stays (step s) := by
  unfold step
  cases hpos : s.pos with
  | lookInt | lookForeground | lookTerm => exact .running hrun
  | killInt g => exact .running (kill_int hrun g)
  | killTerm g =>
    refine ⟨fun hs => ?_, fun _ => rfl⟩
    exact absurd ((kill_parent hrun g .term).1.mp hs).2 (by decide)
  | foreground g => exact stays_tcsetpgrp hrun (Or.inr ⟨g, hpos⟩)
  | restore => exact stays_tcsetpgrp hrun (Or.inl hpos)
  | firstWait => exact absurd hpos hg.1
  | secondWait => exact absurd hpos hg.2.1
  | done => exact absurd hpos hg.2.2

theorem step_stays (h : Stays s) (he : Enabled s e) : Stays (next s e) := by
  cases e with
  | join c => exact ⟨h.stopped, h.ended⟩
  | step => exact stays_step he.1 he.2
  | take c sig => exact ⟨h.stopped, h.ended⟩
  | wait c => exact .running he.1

/-- A run has at most 29 steps, and one in which nothing more can happen has come to the end exactly
when all its steps were good. Otherwise the parent is stopped, has ended itself or waits. -/
structure Ends (M : Machine State Event) (es : List Event) : Prop where
  bounded : es.length ≤ 29
  done : Complete (M.run es) → ((M.run es).pos = .done ↔ M.Along Good es)
  halted : Complete (M.run es) → (M.run es).pos ≠ .done → Halted (M.run es)

theorem demo_ends (orphaned : Bool) (terminal : Option Group) {es : List Event}
    (h : (machine orphaned terminal).Valid es) : Ends (machine orphaned terminal) es := by
  have hinv {gs : List Event} (hg : (machine orphaned terminal).Valid gs) :
      Invariant ((machine orphaned terminal).run gs) :=
    Machine.invariant (I := Invariant) (initial_invariant orphaned terminal)
      (fun _ _ hs he => step_invariant hs he) hg
  have hstays : Stays ((machine orphaned terminal).run es) :=
    Machine.invariant (I := Stays) (.running ⟨rfl, rfl⟩) (fun _ _ hs he => step_stays hs he) h
  have hcourse : (machine orphaned terminal).Along Good es ↔
      OnCourse ((machine orphaned terminal).run es) := by
    refine Machine.along_iff ?_ (fun gs e hg he => onCourse_next (hinv hg) he) h
    exact ⟨⟨rfl, rfl⟩, nofun, fun hn => absurd (by simp [machine, initial, Pos.Goes]) hn⟩
  refine ⟨run_bounded h, fun hc => ?_, fun hc hd => ?_⟩
  · rw [hcourse]
    exact ⟨(hinv h).onCourse, fun ho => ho.done (hinv h) hc⟩
  · cases hs : ((machine orphaned terminal).run es).parent.stopped with
    | true => exact .stopped (hstays.stopped hs).1 (hstays.stopped hs).2 hs
    | false =>
      cases he : ((machine orphaned terminal).run es).parent.ended with
      | true => exact .ended he (hstays.ended he)
      | false =>
        obtain ⟨hpos, hlive, huntaken⟩ := (hinv h).waits ⟨hs, he⟩ hc hd
        exact .waits ⟨hs, he⟩ hpos hlive huntaken

/-- The order the program counts on, from a terminal: the parent stops before its SIGTERM. -/
def fromTerminal : List Event :=
  [.join .one, .join .two, .step, .step, .take .one .int, .take .two .int, .step, .step, .step]

theorem demo_ends_fromTerminal :
    Ends (machine false (some .parent)) fromTerminal ∧
      ((machine false (some .parent)).run fromTerminal).parent.stopped = true ∧
      ((machine false (some .parent)).run fromTerminal).pos = .restore :=
  ⟨demo_ends false (some .parent) (by decide), by decide, by decide⟩

end ProcessGroups
