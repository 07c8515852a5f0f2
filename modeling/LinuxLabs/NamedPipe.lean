import LinuxLabs.CString
import LinuxLabs.Channel
import LinuxLabs.Execution

/-! # A pipe, and then a FIFO (IPC lab 02)
The parent makes the FIFO only after its write to the pipe, and the child may come to its `open`
before that. Then the call fails, and nobody is left whom the parent's own `open` could meet. -/
namespace NamedPipe

open Execution CString Channel

def bufferSize : ℕ := 128

def msg : List Byte := ascii "Hello Child via pipe!"

def msg2 : List Byte := ascii "Hello Child via FIFO!"

/-- `left` says that the FIFO is there from an earlier run; the buffer starts with anything. -/
structure Setup where
  left : Bool
  buffer : List Byte
  sized : buffer.length = bufferSize

inductive ParentPos where
  | closeRead
  | write
  | closeWrite
  | mkfifo
  | openFifo
  | opening
  | writeFifo
  | closeFifo
  | wait
  | unlink
  | exited
  deriving DecidableEq

inductive ChildPos where
  | closeWrite
  | read
  | print
  | closeRead
  | openFifo
  | opening
  | readFifo
  | printFifo
  | closeFifo
  | exited
  deriving DecidableEq

/-- `opened` says that the child's `fd` is not -1. -/
structure State where
  pipe : Stream Byte
  fifo : Stream Byte
  fifoExists : Bool
  parent : ParentPos
  child : ChildPos
  opened : Bool
  buffer : List Byte
  output : List (List Byte)

/-- How many statements lie behind. -/
def ParentPos.rank : ParentPos → ℕ
  | .closeRead => 0
  | .write => 1
  | .closeWrite => 2
  | .mkfifo => 3
  | .openFifo => 4
  | .opening => 5
  | .writeFifo => 6
  | .closeFifo => 7
  | .wait => 8
  | .unlink => 9
  | .exited => 10

def ChildPos.rank : ChildPos → ℕ
  | .closeWrite => 0
  | .read => 1
  | .print => 2
  | .closeRead => 3
  | .openFifo => 4
  | .opening => 5
  | .readFifo => 6
  | .printFifo => 7
  | .closeFifo => 8
  | .exited => 9

variable (p : Setup)

def initial : State := ⟨.empty, .empty, p.left, .closeRead, .closeWrite, false, p.buffer, []⟩

inductive Event where
  | parent
  | child
  deriving DecidableEq

/-- A read waits for data or for the last writer to close; an `open` of the FIFO that has entered
waits for the other side to enter. -/
def Enabled (s : State) : Event → Prop
  | .parent =>
    match s.parent with
    | .opening => s.opened
    | .wait => s.child = .exited
    | .exited => False
    | _ => True
  | .child =>
    match s.child with
    | .read => s.pipe.pending ≠ [] ∨ 3 ≤ s.parent.rank
    | .opening => 5 ≤ s.parent.rank
    | .readFifo => s.opened → s.fifo.pending ≠ [] ∨ 8 ≤ s.parent.rank
    | .exited => False
    | _ => True

def parentNext (s : State) : State :=
  match s.parent with
  | .closeRead => { s with parent := .write }
  | .write => { s with pipe := s.pipe.write (msg ++ [0]), parent := .closeWrite }
  | .closeWrite => { s with parent := .mkfifo }
  | .mkfifo => { s with fifoExists := true, parent := .openFifo }
  | .openFifo => { s with parent := .opening }
  | .opening => { s with parent := .writeFifo }
  | .writeFifo => { s with fifo := s.fifo.write (msg2 ++ [0]), parent := .closeFifo }
  | .closeFifo => { s with parent := .wait }
  | .wait => { s with parent := .unlink }
  | .unlink => { s with fifoExists := false, parent := .exited }
  | .exited => s

/-- After a failed `open` the child goes on with -1, from which nothing can be read. -/
def childNext (s : State) : State :=
  match s.child with
  | .closeWrite => { s with child := .read }
  | .read =>
    { s with
      pipe := s.pipe.read bufferSize
      buffer := overwrite s.buffer (s.pipe.pending.take bufferSize)
      child := .print }
  | .print => { s with output := s.output ++ [cstr s.buffer], child := .closeRead }
  | .closeRead => { s with child := .openFifo }
  | .openFifo =>
    if s.fifoExists then { s with opened := true, child := .opening }
    else { s with child := .readFifo }
  | .opening => { s with child := .readFifo }
  | .readFifo =>
    if s.opened then
      { s with
        fifo := s.fifo.read bufferSize
        buffer := overwrite s.buffer (s.fifo.pending.take bufferSize)
        child := .printFifo }
    else { s with child := .printFifo }
  | .printFifo => { s with output := s.output ++ [cstr s.buffer], child := .closeFifo }
  | .closeFifo => { s with child := .exited }
  | .exited => s

def next (s : State) : Event → State
  | .parent => parentNext s
  | .child => childNext s

def machine : Machine State Event := ⟨initial p, Enabled, next⟩

instance (s : State) (e : Event) : Decidable ((machine p).Enabled s e) := by
  simp only [machine]
  unfold Enabled
  generalize s.parent = parent
  generalize s.child = child
  casesm* Event, ParentPos, ChildPos <;> infer_instance

/-- The child's `open` does not come before there is a FIFO. -/
def InTime (s : State) : Event → Prop
  | .parent => True
  | .child => s.child = .openFifo → s.fifoExists

instance (s : State) (e : Event) : Decidable (InTime s e) := by
  casesm Event <;> simp only [InTime] <;> infer_instance

/-! ## What has come over -/

/-- The string that the buffer holds, from the first read on. -/
def State.held (s : State) : List Byte :=
  if 7 ≤ s.child.rank then (if s.opened then msg2 else msg) else msg

/-- What the child has printed. -/
def State.printed (s : State) : List (List Byte) :=
  if s.child.rank ≤ 2 then [] else if s.child.rank ≤ 7 then [msg] else [msg, s.held]

structure Invariant (p : Setup) (s : State) : Prop where
  written : s.pipe.written = if s.parent.rank ≤ 1 then [] else msg ++ [0]
  received : s.pipe.received = if s.child.rank ≤ 1 then [] else msg ++ [0]
  written2 : s.fifo.written = if s.parent.rank ≤ 6 then [] else msg2 ++ [0]
  received2 : s.fifo.received =
    if 7 ≤ s.child.rank then (if s.opened then msg2 ++ [0] else []) else []
  sized : s.buffer.length = bufferSize
  held : 2 ≤ s.child.rank → cstr s.buffer = s.held
  output : s.output = s.printed
  there : s.fifoExists = (decide (s.parent.rank ≤ 9) && (p.left || decide (4 ≤ s.parent.rank)))
  entered : s.opened → 5 ≤ s.child.rank
  notEntered : s.child = .opening → s.opened
  met : 6 ≤ s.parent.rank → s.opened
  met2 : s.opened → 6 ≤ s.child.rank → 5 ≤ s.parent.rank
  waited : 9 ≤ s.parent.rank → s.child = .exited

variable {p} {s : State}

theorem invariant_initial : Invariant p (initial p) where
  written := rfl
  received := rfl
  written2 := rfl
  received2 := rfl
  sized := p.sized
  held h := absurd h (Nat.not_succ_le_zero 1)
  output := rfl
  there := by simp [initial, ParentPos.rank]
  entered h := by cases h
  notEntered h := by cases h
  met h := absurd h (Nat.not_succ_le_zero 5)
  met2 h := by cases h
  waited h := absurd h (Nat.not_succ_le_zero 8)

/-- The parent gets behind its `open` and its `wait` only when they return. -/
theorem met_next (h : Invariant p s) (he : Enabled s .parent) {r : ℕ}
    (hr : r = s.parent.rank + 1) :
    (6 ≤ r → s.opened) ∧ (s.opened → 6 ≤ s.child.rank → 5 ≤ r) ∧ (9 ≤ r → s.child = .exited) := by
  have hmet2 := h.met2
  refine ⟨fun hle => ?_, fun ho hc => ?_, fun hle => ?_⟩
  · by_cases hrank : 6 ≤ s.parent.rank
    · exact h.met hrank
    · cases hp : s.parent <;> simp only [hp, ParentPos.rank] at hrank hr
      case opening => simpa only [Enabled, hp] using he
      all_goals omega
  · exact (hmet2 ho hc).trans (by omega)
  · by_cases hrank : 9 ≤ s.parent.rank
    · exact h.waited hrank
    · cases hp : s.parent <;> simp only [hp, ParentPos.rank] at hrank hr
      case wait => simpa only [Enabled, hp] using he
      all_goals omega

theorem invariant_parent (h : Invariant p s) (he : Enabled s .parent) :
    Invariant p (parentNext s) := by
  obtain ⟨hw, hr, hw2, hr2, hsized, hheld, hout, hthere, hentered, hnot, -, hmet2, -⟩ := id h
  have hnext := fun q : ParentPos => met_next (r := q.rank) h he
  unfold parentNext
  cases hp : s.parent <;> dsimp only <;> rw [hp] at hw hw2 hthere hmet2 hnext
  case closeRead =>
    obtain ⟨hmet, hmet2, hwaited⟩ := hnext .write rfl
    exact ⟨hw, hr, hw2, hr2, hsized, hheld, hout, hthere, hentered, hnot, hmet, hmet2, hwaited⟩
  case write =>
    obtain ⟨hmet, hmet2, hwaited⟩ := hnext .closeWrite rfl
    refine ⟨?_, hr, hw2, hr2, hsized, hheld, hout, hthere, hentered, hnot, hmet, hmet2, hwaited⟩
    rw [Stream.written_write, hw]
    rfl
  case closeWrite =>
    obtain ⟨hmet, hmet2, hwaited⟩ := hnext .mkfifo rfl
    exact ⟨hw, hr, hw2, hr2, hsized, hheld, hout, hthere, hentered, hnot, hmet, hmet2, hwaited⟩
  case mkfifo =>
    obtain ⟨hmet, hmet2, hwaited⟩ := hnext .openFifo rfl
    exact ⟨hw, hr, hw2, hr2, hsized, hheld, hout, (Bool.or_true p.left).symm, hentered, hnot, hmet,
      hmet2, hwaited⟩
  case openFifo =>
    obtain ⟨hmet, hmet2, hwaited⟩ := hnext .opening rfl
    exact ⟨hw, hr, hw2, hr2, hsized, hheld, hout, hthere, hentered, hnot, hmet, hmet2, hwaited⟩
  case opening =>
    obtain ⟨hmet, hmet2, hwaited⟩ := hnext .writeFifo rfl
    exact ⟨hw, hr, hw2, hr2, hsized, hheld, hout, hthere, hentered, hnot, hmet, hmet2, hwaited⟩
  case writeFifo =>
    obtain ⟨hmet, hmet2, hwaited⟩ := hnext .closeFifo rfl
    refine ⟨hw, hr, ?_, hr2, hsized, hheld, hout, hthere, hentered, hnot, hmet, hmet2, hwaited⟩
    rw [Stream.written_write, hw2]
    rfl
  case closeFifo =>
    obtain ⟨hmet, hmet2, hwaited⟩ := hnext .wait rfl
    exact ⟨hw, hr, hw2, hr2, hsized, hheld, hout, hthere, hentered, hnot, hmet, hmet2, hwaited⟩
  case wait =>
    obtain ⟨hmet, hmet2, hwaited⟩ := hnext .unlink rfl
    exact ⟨hw, hr, hw2, hr2, hsized, hheld, hout, hthere, hentered, hnot, hmet, hmet2, hwaited⟩
  case unlink =>
    obtain ⟨hmet, hmet2, hwaited⟩ := hnext .exited rfl
    exact ⟨hw, hr, hw2, hr2, hsized, hheld, hout, rfl, hentered, hnot, hmet, hmet2, hwaited⟩
  case exited => simp only [Enabled, hp] at he

theorem cstr_overwrite {text : List Byte} (h : (0 : Byte) ∉ text) (old : List Byte) :
    cstr (overwrite old (text ++ [0])) = text := by
  rw [overwrite, List.append_assoc, cstr_append_of_noNul h]
  simp [cstr]

/-- A read that finds nothing read before takes the whole message. -/
theorem take_pending {c : Stream Byte} {text : List Byte} (hr : c.received = [])
    (hw : c.written = text) (hlen : text.length ≤ bufferSize) :
    c.pending.take bufferSize = text := by
  have hpending : c.pending = text := by rw [← hw, Stream.written, hr, List.nil_append]
  rw [hpending, List.take_of_length_le hlen]

/-- The child gets behind its `open` only when the parent has entered its own. -/
theorem entered_next (h : Invariant p s) (he : Enabled s .child) {r : ℕ}
    (hr : r = s.child.rank + 1) :
    (s.opened → 5 ≤ r) ∧ (s.opened → 6 ≤ r → 5 ≤ s.parent.rank) := by
  refine ⟨fun ho => (h.entered ho).trans (by omega), fun ho hle => ?_⟩
  by_cases hrank : 6 ≤ s.child.rank
  · exact h.met2 ho hrank
  · cases hc : s.child <;> simp only [hc, ChildPos.rank] at hrank hr
    case opening => simpa only [Enabled, hc] using he
    all_goals omega

theorem invariant_child (h : Invariant p s) (he : Enabled s .child) :
    Invariant p (childNext s) := by
  obtain ⟨hw, hr, hw2, hr2, hsized, hheld, hout, hthere, hentered, hnot, hmet, hmet2, hwaited⟩ :=
    id h
  have hlive : ¬ 9 ≤ s.parent.rank := by
    intro hle
    simp only [Enabled, hwaited hle] at he
  have hwaited' : ∀ c : ChildPos, 9 ≤ s.parent.rank → c = .exited := fun c hle => absurd hle hlive
  have hnext := fun c : ChildPos => entered_next (r := c.rank) h he
  unfold childNext
  simp only [State.held, State.printed] at hheld hout
  cases hc : s.child <;> dsimp only <;>
    rw [hc] at hr hr2 hheld hout hentered hmet2 hnext
  case closeWrite =>
    obtain ⟨hentered, hmet2⟩ := hnext .read rfl
    exact ⟨hw, hr, hw2, hr2, hsized, fun hle => absurd hle (Nat.lt_irrefl 1), hout, hthere,
      hentered, nofun, hmet, hmet2, hwaited' _⟩
  case read =>
    obtain ⟨hentered, hmet2⟩ := hnext .print rfl
    have hparent : ¬ s.parent.rank ≤ 1 := by
      simp only [Enabled, hc] at he
      intro hle
      rw [if_pos hle] at hw
      rcases he with hne | hclosed
      · exact hne (Stream.pending_of_written hw)
      · omega
    have htake := take_pending hr (hw.trans (if_neg hparent)) (by decide)
    refine ⟨?_, ?_, hw2, hr2, ?_, fun _ => ?_, hout, hthere, hentered, nofun, hmet, hmet2,
      hwaited' _⟩
    · rw [Stream.written_read]
      exact hw
    · rw [Stream.received_read, hr, htake]
      rfl
    · dsimp only
      rw [htake, overwrite_length]
      · exact hsized
      · rw [hsized]
        decide
    · dsimp only
      rw [htake, cstr_overwrite (by decide)]
      rfl
  case print =>
    obtain ⟨hentered, hmet2⟩ := hnext .closeRead rfl
    refine ⟨hw, hr, hw2, hr2, hsized, fun _ => hheld le_rfl, ?_, hthere, hentered, nofun, hmet,
      hmet2, hwaited' _⟩
    dsimp only
    rw [hout, hheld le_rfl]
    rfl
  case closeRead =>
    obtain ⟨hentered, hmet2⟩ := hnext .openFifo rfl
    exact ⟨hw, hr, hw2, hr2, hsized, fun _ => hheld (by decide), hout, hthere, hentered, nofun,
      hmet, hmet2, hwaited' _⟩
  case openFifo =>
    split_ifs with hexists
    · exact ⟨hw, hr, hw2, hr2, hsized, fun _ => hheld (by decide), hout, hthere, fun _ => le_rfl,
        fun _ => rfl, fun _ => rfl, fun _ hle => absurd hle (Nat.lt_irrefl 5), hwaited' _⟩
    · have hclosed : ¬ s.opened := fun ho => absurd (hentered ho) (Nat.lt_irrefl 4)
      exact ⟨hw, hr, hw2, hr2, hsized, fun _ => hheld (by decide), hout, hthere,
        fun ho => absurd ho hclosed, nofun, hmet, fun ho => absurd ho hclosed, hwaited' _⟩
  case opening =>
    obtain ⟨hentered, hmet2⟩ := hnext .readFifo rfl
    exact ⟨hw, hr, hw2, hr2, hsized, fun _ => hheld (by decide), hout, hthere, hentered, nofun,
      hmet, hmet2, hwaited' _⟩
  case readFifo =>
    obtain ⟨hentered, hmet2⟩ := hnext .printFifo rfl
    split_ifs with ho
    · have hparent : ¬ s.parent.rank ≤ 6 := by
        simp only [Enabled, hc] at he
        intro hle
        rw [if_pos hle] at hw2
        rcases he ho with hne | hclosed
        · exact hne (Stream.pending_of_written hw2)
        · omega
      have htake := take_pending hr2 (hw2.trans (if_neg hparent)) (by decide)
      refine ⟨hw, hr, ?_, ?_, ?_, fun _ => ?_, hout, hthere, hentered, nofun, hmet, hmet2,
        hwaited' _⟩
      · rw [Stream.written_read]
        exact hw2
      · rw [Stream.received_read, hr2, htake]
        exact (if_pos ho).symm
      · dsimp only
        rw [htake, overwrite_length]
        · exact hsized
        · rw [hsized]
          decide
      · dsimp only
        rw [htake, cstr_overwrite (by decide)]
        exact (if_pos ho).symm
    · refine ⟨hw, hr, hw2, ?_, hsized, fun _ => ?_, hout, hthere, hentered, nofun, hmet, hmet2,
        hwaited' _⟩
      · rw [hr2]
        exact (if_neg ho).symm
      · dsimp only
        rw [hheld (by decide)]
        exact (if_neg ho).symm
  case printFifo =>
    obtain ⟨hentered, hmet2⟩ := hnext .closeFifo rfl
    refine ⟨hw, hr, hw2, hr2, hsized, fun _ => hheld (by decide), ?_, hthere, hentered, nofun, hmet,
      hmet2, hwaited' _⟩
    dsimp only
    rw [hout, hheld (by decide)]
    rfl
  case closeFifo =>
    obtain ⟨hentered, hmet2⟩ := hnext .exited rfl
    exact ⟨hw, hr, hw2, hr2, hsized, fun _ => hheld (by decide), hout, hthere, hentered, nofun,
      hmet, hmet2, hwaited' _⟩
  case exited => simp only [Enabled, hc] at he

theorem invariant_run {es : List Event} (h : (machine p).Valid es) :
    Invariant p ((machine p).run es) := by
  apply Machine.invariant invariant_initial _ h
  intro s e hi he
  cases e with
  | parent => exact invariant_parent hi he
  | child => exact invariant_child hi he

/-! ## Who comes first -/

/-- The child is behind its `open`, and that has failed. -/
def Missed (s : State) : Prop := 6 ≤ s.child.rank ∧ ¬ s.opened

theorem missed_next (h : Invariant p s) {e : Event} (he : Enabled s e) :
    ¬ Missed (next s e) ↔ ¬ Missed s ∧ InTime s e := by
  cases e with
  | parent =>
    have hsame : Missed (next s .parent) ↔ Missed s := by
      simp only [next, parentNext, Missed]
      cases s.parent <;> rfl
    simp only [hsame, InTime, and_true]
  | child =>
    have hnot := h.notEntered
    have hentered := h.entered
    simp only [next, childNext, Missed, InTime]
    cases hc : s.child <;> simp only [hc, ChildPos.rank] at hnot hentered ⊢
    case openFifo =>
      have hclosed : ¬ s.opened := fun ho => absurd (hentered ho) (by omega)
      cases hexists : s.fifoExists <;> simp [hclosed]
    case opening => simp [hnot]
    case readFifo => cases s.opened <;> simp
    all_goals simp

theorem inTime_iff {es : List Event} (h : (machine p).Valid es) :
    (machine p).Along InTime es ↔ ¬ Missed ((machine p).run es) := by
  apply Machine.along_iff (P := fun s => ¬ Missed s) _ _ h
  · intro hmissed
    exact absurd hmissed.1 (Nat.not_succ_le_zero 5)
  · intro es e hv he
    exact missed_next (invariant_run hv) he

theorem rank_next {e : Event} (he : Enabled s e) :
    s.parent.rank + s.child.rank + 1 ≤ (next s e).parent.rank + (next s e).child.rank := by
  cases e with
  | parent =>
    simp only [next, parentNext]
    cases hp : s.parent <;> simp only [ParentPos.rank]
    case exited => simp only [Enabled, hp] at he
    all_goals omega
  | child =>
    simp only [next, childNext]
    cases hc : s.child <;> dsimp only
    case openFifo => split_ifs <;> simp only [ChildPos.rank] <;> omega
    case readFifo => split_ifs <;> simp only [ChildPos.rank] <;> omega
    case exited => simp only [Enabled, hc] at he
    all_goals
      simp only [ChildPos.rank]
      omega

/-- Where neither of the two can go on. -/
theorem Invariant.stuck (h : Invariant p s) (hstuck : ∀ e, ¬ Enabled s e) :
    s.child = .exited ∧ (s.parent = .exited ∨ s.parent = .opening ∧ ¬ s.opened) := by
  have hparent := hstuck .parent
  have hchild := hstuck .child
  have hmet2 := h.met2
  have hwaited := h.waited
  simp only [Enabled] at hparent hchild
  cases hp : s.parent <;>
    simp only [hp, not_true_eq_false, ParentPos.rank] at hparent hchild hmet2 hwaited
  case exited => exact ⟨hwaited (by omega), Or.inl rfl⟩
  case opening =>
    refine ⟨?_, Or.inr ⟨rfl, hparent⟩⟩
    cases hc : s.child <;> simp only [hc, not_true_eq_false] at hchild
    case exited => rfl
    case read => exact absurd (Or.inr (by omega)) hchild
    case opening => exact absurd le_rfl hchild
    case readFifo => exact absurd (fun ho => absurd ho hparent) hchild
  case wait =>
    cases hc : s.child <;> simp only [hc, not_true_eq_false] at hchild hparent
    case read => exact absurd (Or.inr (by omega)) hchild
    case opening => exact absurd (by omega) hchild
    case readFifo => exact absurd (fun _ => Or.inr le_rfl) hchild

/-- Whatever the interleaving: a child that opens the FIFO in time gets both messages, and both end;
one that does not prints the first message twice, and the parent never returns from its own `open`.
The FIFO it leaves behind saves the next run. -/
structure Exchanged (p : Setup) (es : List Event) (s : State) : Prop where
  bounded : es.length ≤ 19
  inTime : (∀ e, ¬ Enabled s e) → (machine p).Along InTime es →
    s.parent = .exited ∧ s.child = .exited ∧ s.output = [msg, msg2] ∧ s.fifoExists = false
  missed : (∀ e, ¬ Enabled s e) → ¬ (machine p).Along InTime es →
    s.parent = .opening ∧ s.child = .exited ∧ s.output = [msg, msg] ∧ s.fifoExists = true
  again : p.left → (machine p).Along InTime es

theorem again_inTime (hleft : p.left) {es : List Event} (h : (machine p).Valid es) :
    (machine p).Along InTime es := by
  apply Machine.along_of_invariant (I := Invariant p) (C := Enabled) invariant_initial _ _ h h
  · intro s e hi he _
    cases e with
    | parent => exact invariant_parent hi he
    | child => exact invariant_child hi he
  · intro s e hi he
    cases e with
    | parent => trivial
    | child =>
      intro hc
      rw [hi.there, hleft, Bool.true_or, Bool.and_true, decide_eq_true_iff]
      by_contra hlate
      have hexited := hi.waited (by omega)
      rw [hc] at hexited
      cases hexited

theorem exchanged (p : Setup) {es : List Event} (h : (machine p).Valid es) :
    Exchanged p es ((machine p).run es) := by
  have hi := invariant_run h
  have hsteps : es.length ≤ ((machine p).run es).parent.rank + ((machine p).run es).child.rank := by
    induction es using List.reverseRecOn with
    | nil => exact Nat.zero_le _
    | append_singleton es e ih =>
      obtain ⟨hv, he⟩ := (Machine.valid_concat es e).mp h
      have hle := ih hv (invariant_run hv)
      have hnext := rank_next he
      rw [Machine.run_concat, List.length_append, List.length_singleton]
      exact (Nat.succ_le_succ hle).trans hnext
  have hmissed := inTime_iff h
  refine ⟨?_, fun hstuck hin => ?_, fun hstuck hout => ?_, fun hleft => again_inTime hleft h⟩
  · have hp : ∀ q : ParentPos, q.rank ≤ 10 := by rintro (_ | _) <;> decide
    have hc : ∀ c : ChildPos, c.rank ≤ 9 := by rintro (_ | _) <;> decide
    have := hp ((machine p).run es).parent
    have := hc ((machine p).run es).child
    omega
  · generalize (machine p).run es = s at *
    obtain ⟨hchild, hparent⟩ := hi.stuck hstuck
    have hopened : s.opened := by
      by_contra ho
      exact hmissed.mp hin ⟨by rw [hchild]; decide, ho⟩
    rcases hparent with hparent | ⟨-, hclosed⟩
    · refine ⟨hparent, hchild, ?_, ?_⟩
      · rw [hi.output, State.printed, State.held, hchild, hopened]
        rfl
      · rw [hi.there, hparent]
        rfl
    · exact absurd hopened hclosed
  · generalize (machine p).run es = s at *
    obtain ⟨hchild, hparent⟩ := hi.stuck hstuck
    obtain ⟨-, hclosed⟩ := not_not.mp (mt hmissed.mpr hout)
    rcases hparent with hparent | ⟨hparent, -⟩
    · exact absurd (hi.met (by rw [hparent]; decide)) hclosed
    · refine ⟨hparent, hchild, ?_, ?_⟩
      · rw [hi.output, State.printed, State.held, hchild]
        simp [ChildPos.rank, hclosed]
      · rw [hi.there, hparent]
        exact Bool.or_true p.left

/-- No FIFO at first, and a buffer of ones. -/
def fresh : Setup := ⟨false, List.replicate bufferSize 1, List.length_replicate⟩

/-- The child's `open` comes before `mkfifo`. -/
def earlyRun : List Event :=
  List.replicate 2 .parent ++ List.replicate 8 .child ++ List.replicate 3 .parent

theorem exchanged_early :
    Exchanged fresh earlyRun ((machine fresh).run earlyRun) ∧
      (∀ e, ¬ (machine fresh).Enabled ((machine fresh).run earlyRun) e) ∧
      ¬ (machine fresh).Along InTime earlyRun :=
  ⟨exchanged fresh (by decide +kernel), by rintro (_ | _) <;> decide +kernel, by decide +kernel⟩

end NamedPipe
