import LinuxLabs.CString
import LinuxLabs.Channel
import LinuxLabs.Execution

/-! # The message queue over a pipe (IPC lab 03)
The parent writes its messages as they lie in memory, and the child reads into one of its own.
What `snprintf` does not reach in a message is whatever the stack held there. -/
namespace MessagePipe

open Execution CString Channel

def msgSize : ℕ := 64

/-- `sizeof(message_t)`: an `int`, and then the text. -/
def messageSize : ℕ := 4 + msgSize

/-- An `int` in memory. -/
def intBytes (n : ℕ) : List Byte :=
  [n.toUInt8, (n / 256).toUInt8, (n / 65536).toUInt8, (n / 16777216).toUInt8]

def intOf : List Byte → ℤ
  | [a, b, c, d] =>
    let n := a.toNat + 256 * b.toNat + 65536 * c.toNat + 16777216 * d.toNat
    if n < 2147483648 then n else n - 4294967296
  | _ => 0

/-- What `snprintf` prints for the index `i`. -/
def text (i : ℕ) : List Byte :=
  snprintf msgSize (ascii "Hello from parent, message " ++ decimal (i + 1))

/-- The queue length, what a pipe can hold, and what the two processes find on their stacks. -/
structure Setup where
  length : ℕ
  capacity : ℕ
  stack : ℕ → List Byte
  msg : List Byte
  small : length < 2147483648
  room : messageSize ≤ capacity
  sized : ∀ i, (stack i).length = messageSize
  sized' : msg.length = messageSize

inductive ParentPos where
  | closeRead
  | fill (i : ℕ)
  | write (i : ℕ)
  | report (i : ℕ)
  | closeWrite
  | wait
  | exited
  | killed
  deriving DecidableEq

inductive ChildPos where
  | closeWrite
  | read (i : ℕ)
  | print (i : ℕ)
  | closeRead
  | exit
  | exited
  deriving DecidableEq

/-- `output` has what the child has printed, the number and the text of each message. -/
structure State where
  pipe : Stream Byte
  messages : ℕ → List Byte
  parent : ParentPos
  child : ChildPos
  msg : List Byte
  output : List (ℤ × List Byte)

variable (p : Setup)

def initial : State := ⟨.empty, p.stack, .closeRead, .closeWrite, p.msg, []⟩

/-- The two loops run over the same constant. -/
def ParentPos.loop (length i : ℕ) : ParentPos := if i < length then .fill i else .closeWrite

def ChildPos.loop (length i : ℕ) : ChildPos := if i < length then .read i else .closeRead

/-- The write end is open in the parent. -/
def ParentPos.Writes : ParentPos → Prop
  | .wait | .exited | .killed => False
  | _ => True

def ChildPos.Reads : ChildPos → Prop
  | .exit | .exited => False
  | _ => True

/-- `sigpipe` kills a parent that writes when the child has closed its end. -/
inductive Event where
  | parent
  | child
  | sigpipe
  deriving DecidableEq

/-- A write of so few bytes is done whole or waits, and a read waits for data or the end. -/
def Enabled (s : State) : Event → Prop
  | .parent =>
    match s.parent with
    | .write _ => s.pipe.pending.length + messageSize ≤ p.capacity ∧ s.child.Reads
    | .wait => s.child = .exited
    | .exited | .killed => False
    | _ => True
  | .child =>
    match s.child with
    | .read _ => s.pipe.pending ≠ [] ∨ ¬ s.parent.Writes
    | .exited => False
    | _ => True
  | .sigpipe =>
    match s.parent with
    | .write _ => ¬ s.child.Reads
    | _ => False

def parentNext (s : State) : State :=
  match s.parent with
  | .closeRead => { s with parent := .loop p.length 0 }
  | .fill i =>
    { s with
      messages := Function.update s.messages i
        (overwrite (s.messages i) (intBytes (i + 1) ++ (text i ++ [0])))
      parent := .write i }
  | .write i => { s with pipe := s.pipe.write (s.messages i), parent := .report i }
  | .report i => { s with parent := .loop p.length (i + 1) }
  | .closeWrite => { s with parent := .wait }
  | .wait => { s with parent := .exited }
  | .exited | .killed => s

/-- `read` returns 0 at the end of the stream, and then nothing is printed. -/
def childNext (s : State) : State :=
  match s.child with
  | .closeWrite => { s with child := .loop p.length 0 }
  | .read i =>
    if s.pipe.pending = [] then { s with child := .loop p.length (i + 1) }
    else
      { s with
        pipe := s.pipe.read messageSize
        msg := overwrite s.msg (s.pipe.pending.take messageSize)
        child := .print i }
  | .print i =>
    { s with
      output := s.output ++ [(intOf (s.msg.take 4), cstr (s.msg.drop 4))]
      child := .loop p.length (i + 1) }
  | .closeRead => { s with child := .exit }
  | .exit => { s with child := .exited }
  | .exited => s

def next (s : State) : Event → State
  | .parent => parentNext p s
  | .child => childNext p s
  | .sigpipe => { s with parent := .killed }

def machine : Machine State Event := ⟨initial p, Enabled p, next p⟩

instance (s : State) (e : Event) : Decidable ((machine p).Enabled s e) := by
  have hr : DecidablePred ChildPos.Reads := fun c => by
    casesm ChildPos <;> simp only [ChildPos.Reads] <;> infer_instance
  have hw : DecidablePred ParentPos.Writes := fun c => by
    casesm ParentPos <;> simp only [ParentPos.Writes] <;> infer_instance
  simp only [machine]
  unfold Enabled
  generalize s.parent = parent
  generalize s.child = child
  casesm* Event, ParentPos, ChildPos <;> infer_instance

/-- The message as the parent sends it. -/
def Setup.record (i : ℕ) : List Byte :=
  overwrite (p.stack i) (intBytes (i + 1) ++ (text i ++ [0]))

/-- What is printed for it. -/
def line (i : ℕ) : ℤ × List Byte := ((i + 1 : ℕ), text i)

/-! ## A message in memory -/

variable {p} {s : State}

theorem toUInt8_toNat (n : ℕ) : n.toUInt8.toNat = n % 256 := rfl

theorem intOf_intBytes {n : ℕ} (h : n < 2147483648) : intOf (intBytes n) = n := by
  have hn : n % 256 + 256 * (n / 256 % 256) + 65536 * (n / 65536 % 256) +
      16777216 * (n / 16777216 % 256) = n := by omega
  simp only [intOf, intBytes, toUInt8_toNat, hn, if_pos h]

theorem text_noNul (i : ℕ) : (0 : Byte) ∉ text i := by
  apply snprintf_noNul
  rw [List.mem_append]
  rintro (h | h)
  · exact absurd h (by decide)
  · exact decimal_noNul _ h

theorem text_length (i : ℕ) : (text i).length < msgSize := snprintf_length_lt (by decide) _

theorem records (p : Setup) : Records p.record messageSize where
  length i := by
    have ht := text_length i
    have hs := p.sized i
    simp only [Setup.record, overwrite, intBytes, List.length_append, List.length_cons,
      List.length_nil, List.length_drop, hs]
    simp only [messageSize]
    omega
  pos := by decide

/-- The child finds the number and the text again, whatever lies behind the terminator. -/
theorem line_record {i : ℕ} (hi : i < p.length) :
    (intOf ((p.record i).take 4), cstr ((p.record i).drop 4)) = line i := by
  have hsmall := p.small
  have hhead : (p.record i).take 4 = intBytes (i + 1) := by
    rw [Setup.record, overwrite, List.append_assoc]
    exact List.take_left' rfl
  have hrest : (p.record i).drop 4 = text i ++ ([0] ++ (p.stack i).drop
      (intBytes (i + 1) ++ (text i ++ [0])).length) := by
    rw [Setup.record, overwrite, List.append_assoc, List.append_assoc]
    exact List.drop_left' rfl
  rw [hhead, hrest, intOf_intBytes (by omega), cstr_append_of_noNul (text_noNul i)]
  simp [line, cstr]

/-! ## How far the two are -/

/-- How many messages are written, read and printed at a position. -/
def ParentPos.written (length : ℕ) : ParentPos → ℕ
  | .closeRead => 0
  | .fill i | .write i => i
  | .report i => i + 1
  | .closeWrite | .wait | .exited | .killed => length

def ChildPos.read_ (length : ℕ) : ChildPos → ℕ
  | .closeWrite => 0
  | .read i => i
  | .print i => i + 1
  | .closeRead | .exit | .exited => length

def ChildPos.printed (length : ℕ) : ChildPos → ℕ
  | .closeWrite => 0
  | .read i | .print i => i
  | .closeRead | .exit | .exited => length

/-- The steps that lie behind a position. -/
def ParentPos.steps (length : ℕ) : ParentPos → ℕ
  | .closeRead => 0
  | .fill i => 1 + 3 * i
  | .write i => 2 + 3 * i
  | .report i => 3 + 3 * i
  | .closeWrite => 1 + 3 * length
  | .wait => 2 + 3 * length
  | .exited | .killed => 3 + 3 * length

def ChildPos.steps (length : ℕ) : ChildPos → ℕ
  | .closeWrite => 0
  | .read i => 1 + 2 * i
  | .print i => 2 + 2 * i
  | .closeRead => 1 + 2 * length
  | .exit => 2 + 2 * length
  | .exited => 3 + 2 * length

/-- The positions in the loops are below the queue length. -/
def ParentPos.Fits (length : ℕ) : ParentPos → Prop
  | .fill i | .write i | .report i => i < length
  | .killed => False
  | _ => True

def ChildPos.Fits (length : ℕ) : ChildPos → Prop
  | .read i | .print i => i < length
  | _ => True

theorem ParentPos.loop_spec {length i : ℕ} (h : i ≤ length) :
    (ParentPos.loop length i).written length = i ∧
      (ParentPos.loop length i).steps length = 1 + 3 * i ∧
      (ParentPos.loop length i).Fits length := by
  unfold ParentPos.loop
  split
  · next hlt => exact ⟨rfl, rfl, hlt⟩
  · next hge =>
    obtain rfl : i = length := by omega
    exact ⟨rfl, rfl, trivial⟩

theorem ChildPos.loop_spec {length i : ℕ} (h : i ≤ length) :
    (ChildPos.loop length i).read_ length = i ∧ (ChildPos.loop length i).printed length = i ∧
      (ChildPos.loop length i).steps length = 1 + 2 * i ∧
      (ChildPos.loop length i).Fits length := by
  unfold ChildPos.loop
  split
  · next hlt => exact ⟨rfl, rfl, rfl, hlt⟩
  · next hge =>
    obtain rfl : i = length := by omega
    exact ⟨rfl, rfl, rfl, trivial⟩

/-- `messages[i]` has not been touched before its turn, and is ready when it is written. -/
def Prepared (p : Setup) (messages : ℕ → List Byte) : ParentPos → Prop
  | .closeRead => ∀ j, messages j = p.stack j
  | .fill i => ∀ j, i ≤ j → messages j = p.stack j
  | .write i => messages i = p.record i ∧ ∀ j, i < j → messages j = p.stack j
  | .report i => ∀ j, i < j → messages j = p.stack j
  | _ => True

structure Invariant (p : Setup) (s : State) : Prop where
  parent : s.parent.Fits p.length
  child : s.child.Fits p.length
  prepared : Prepared p s.messages s.parent
  written : s.pipe.written = (List.range (s.parent.written p.length)).flatMap p.record
  received : s.pipe.received = (List.range (s.child.read_ p.length)).flatMap p.record
  msg : s.msg.length = messageSize ∧ ∀ i, s.child = .print i → s.msg = p.record i
  output : s.output = (List.range (s.child.printed p.length)).map line

theorem invariant_initial : Invariant p (initial p) :=
  ⟨trivial, trivial, fun _ => rfl, rfl, rfl, ⟨p.sized', by simp [initial]⟩, rfl⟩

theorem prepared_loop {messages : ℕ → List Byte} {i : ℕ}
    (h : ∀ j, i ≤ j → messages j = p.stack j) :
    Prepared p messages (ParentPos.loop p.length i) := by
  unfold ParentPos.loop
  split
  · exact h
  · trivial

/-- A child that is at its read has not read everything. -/
theorem Invariant.ahead (h : Invariant p s) {i : ℕ} (hc : s.child = .read i)
    (he : s.pipe.pending ≠ [] ∨ ¬ s.parent.Writes) :
    s.child.read_ p.length < s.parent.written p.length := by
  have hle := (records p).le h.written h.received
  have hfits := h.child
  rw [hc] at hfits
  refine lt_of_le_of_ne hle fun heq => ?_
  rcases he with hne | hclosed
  · have hreceived := h.received
    rw [heq] at hreceived
    exact hne (pending_of_eq h.written hreceived)
  · have hparent := h.parent
    rw [hc] at heq
    cases hp : s.parent <;> simp only [hp, ParentPos.Writes, not_true_eq_false] at hclosed
    case killed => rw [hp] at hparent; exact hparent
    all_goals
      rw [hp] at heq
      exact absurd heq (Nat.ne_of_lt hfits)

/-- A parent at its write has a reader. -/
theorem Invariant.reader (h : Invariant p s) {i : ℕ} (hp : s.parent = .write i) :
    s.child.Reads := by
  have hle := (records p).le h.written h.received
  have hfits := h.parent
  rw [hp] at hle hfits
  cases hc : s.child <;> simp only [ChildPos.Reads]
  all_goals
    rw [hc] at hle
    exact absurd hle (Nat.not_le_of_lt hfits)

/-- A step of the parent takes it one statement on. -/
theorem invariant_parent (h : Invariant p s) (he : Enabled p s .parent) :
    Invariant p (next p s .parent) ∧
      (next p s .parent).parent.steps p.length + (next p s .parent).child.steps p.length =
        s.parent.steps p.length + s.child.steps p.length + 1 := by
  obtain ⟨hparent, hchild, hprepared, hwritten, hreceived, hmsg, houtput⟩ := id h
  simp only [next]
  unfold parentNext
  cases hp : s.parent <;> dsimp only
  case closeRead =>
    rw [hp] at hprepared hwritten
    obtain ⟨hw, hs, hf⟩ := ParentPos.loop_spec (Nat.zero_le p.length)
    refine ⟨⟨hf, hchild, prepared_loop fun j _ => hprepared j, ?_, hreceived, hmsg, houtput⟩, ?_⟩
    · rw [hw]
      exact hwritten
    · rw [hs, ParentPos.steps]
      omega
  case fill i =>
    rw [hp] at hparent hprepared hwritten
    refine ⟨⟨hparent, hchild, ⟨?_, ?_⟩, hwritten, hreceived, hmsg, houtput⟩, ?_⟩
    · dsimp only
      rw [Function.update_self, hprepared i le_rfl]
      rfl
    · intro j hj
      dsimp only
      rw [Function.update_of_ne hj.ne']
      exact hprepared j hj.le
    · simp only [ParentPos.steps]
      omega
  case write i =>
    rw [hp] at hparent hprepared hwritten
    refine ⟨⟨hparent, hchild, hprepared.2, ?_, hreceived, hmsg, houtput⟩, ?_⟩
    · rw [Stream.written_write, hwritten, hprepared.1, ParentPos.written, ParentPos.written,
        List.range_succ, List.flatMap_append, List.flatMap_singleton]
    · simp only [ParentPos.steps]
      omega
  case report i =>
    rw [hp] at hparent hprepared hwritten
    have hlt : i < p.length := hparent
    obtain ⟨hw, hs, hf⟩ := ParentPos.loop_spec (Nat.succ_le_of_lt hlt)
    refine ⟨⟨hf, hchild, prepared_loop hprepared, ?_, hreceived, hmsg, houtput⟩, ?_⟩
    · rw [hw]
      exact hwritten
    · rw [hs, ParentPos.steps]
      omega
  case closeWrite =>
    rw [hp] at hwritten
    refine ⟨⟨trivial, hchild, trivial, hwritten, hreceived, hmsg, houtput⟩, ?_⟩
    simp only [ParentPos.steps]
    omega
  case wait =>
    rw [hp] at hwritten
    refine ⟨⟨trivial, hchild, trivial, hwritten, hreceived, hmsg, houtput⟩, ?_⟩
    simp only [ParentPos.steps]
    omega
  all_goals simp only [Enabled, hp] at he

/-- So does one of the child. -/
theorem invariant_child (h : Invariant p s) (he : Enabled p s .child) :
    Invariant p (next p s .child) ∧
      (next p s .child).parent.steps p.length + (next p s .child).child.steps p.length =
        s.parent.steps p.length + s.child.steps p.length + 1 := by
  obtain ⟨hparent, hchild, hprepared, hwritten, hreceived, hmsg, houtput⟩ := id h
  simp only [next]
  unfold childNext
  cases hc : s.child <;> dsimp only
  case closeWrite =>
    rw [hc] at hreceived houtput
    obtain ⟨hr, ho, hs, hf⟩ := ChildPos.loop_spec (Nat.zero_le p.length)
    refine ⟨⟨hparent, hf, hprepared, hwritten, ?_, ⟨hmsg.1, ?_⟩, ?_⟩, ?_⟩
    · rw [hr]
      exact hreceived
    · intro i hi
      simp only [ChildPos.loop] at hi
      split at hi <;> cases hi
    · rw [ho]
      exact houtput
    · have hzero : ChildPos.closeWrite.steps p.length = 0 := rfl
      omega
  case read i =>
    have henabled : s.pipe.pending ≠ [] ∨ ¬ s.parent.Writes := by
      simpa only [Enabled, hc] using he
    obtain ⟨htake, hne⟩ := (records p).next hwritten hreceived (h.ahead hc henabled)
    rw [hc] at hchild hreceived houtput htake
    have hlen := (records p).length i
    rw [if_neg hne]
    refine ⟨⟨hparent, hchild, hprepared, ?_, ?_, ⟨?_, ?_⟩, houtput⟩, ?_⟩
    · rw [Stream.written_read]
      exact hwritten
    · rw [Stream.received_read, hreceived, htake, ChildPos.read_, ChildPos.read_,
        List.range_succ, List.flatMap_append, List.flatMap_singleton]
    · rw [htake, ChildPos.read_, overwrite_whole (hmsg.1.trans hlen.symm)]
      exact hlen
    · rintro j hj
      cases hj
      rw [htake, ChildPos.read_, overwrite_whole (hmsg.1.trans hlen.symm)]
    · simp only [ChildPos.steps]
      omega
  case print i =>
    rw [hc] at hchild hreceived houtput
    have hlt : i < p.length := hchild
    obtain ⟨hr, ho, hs, hf⟩ := ChildPos.loop_spec (Nat.succ_le_of_lt hlt)
    refine ⟨⟨hparent, hf, hprepared, hwritten, ?_, ⟨hmsg.1, ?_⟩, ?_⟩, ?_⟩
    · rw [hr]
      exact hreceived
    · intro j hj
      simp only [ChildPos.loop] at hj
      split at hj <;> cases hj
    · rw [ho, hmsg.2 i hc, line_record hlt, houtput, ChildPos.printed, List.range_succ,
        List.map_append, List.map_singleton]
    · rw [hs, ChildPos.steps]
      omega
  case closeRead =>
    rw [hc] at hreceived houtput
    refine ⟨⟨hparent, trivial, hprepared, hwritten, hreceived, ⟨hmsg.1, by simp⟩, houtput⟩, ?_⟩
    simp only [ChildPos.steps]
    omega
  case exit =>
    rw [hc] at hreceived houtput
    refine ⟨⟨hparent, trivial, hprepared, hwritten, hreceived, ⟨hmsg.1, by simp⟩, houtput⟩, ?_⟩
    simp only [ChildPos.steps]
    omega
  case exited => simp only [Enabled, hc] at he

/-- One step takes one party one statement on, and keeps what is known of the other. -/
theorem invariant_next (h : Invariant p s) {e : Event} (he : Enabled p s e) :
    Invariant p (next p s e) ∧
      (next p s e).parent.steps p.length + (next p s e).child.steps p.length =
        s.parent.steps p.length + s.child.steps p.length + 1 := by
  cases e with
  | parent => exact invariant_parent h he
  | child => exact invariant_child h he
  | sigpipe =>
    cases hp : s.parent <;> simp only [Enabled, hp] at he
    case write i => exact absurd (h.reader hp) he

/-! ## The messages come over -/

/-- Whatever the interleaving: what the child prints are the messages from the first on, both
processes come to their end after so many steps, and no state before that is stuck. -/
structure HandedOver (p : Setup) (steps : ℕ) (s : State) : Prop where
  inOrder : s.output <+: (List.range p.length).map line
  alive : s.parent ≠ .killed
  bounded : steps ≤ 5 * p.length + 6
  finished : (∀ e, ¬ Enabled p s e) →
    s.parent = .exited ∧ s.child = .exited ∧ s.output = (List.range p.length).map line

theorem Invariant.finished (h : Invariant p s) (hstuck : ∀ e, ¬ Enabled p s e) :
    s.parent = .exited ∧ s.child = .exited := by
  have hparent := hstuck .parent
  have hchild := hstuck .child
  simp only [Enabled] at hparent hchild
  have hexited : s.child = .exited := by
    cases hc : s.child <;> simp only [hc, not_true_eq_false] at hchild
    case exited => rfl
    case read i =>
      -- the parent is not done, so it is at a write for which there is no room
      obtain ⟨hempty, hopen⟩ := not_or.mp hchild
      cases hp : s.parent <;> simp only [hp, not_true_eq_false, ParentPos.Writes] at hparent hopen
      case write j =>
        refine absurd ⟨?_, by rw [hc]; trivial⟩ hparent
        rw [not_not.mp hempty, List.length_nil, Nat.zero_add]
        exact p.room
      all_goals exact absurd not_false hopen
  refine ⟨?_, hexited⟩
  have hfits := h.parent
  cases hp : s.parent <;> simp only [hp, not_true_eq_false] at hparent hfits
  case exited => rfl
  case write j =>
    have hreads := h.reader hp
    rw [hexited] at hreads
    exact hreads.elim
  case wait => exact absurd hexited hparent
  case killed => exact hfits.elim

theorem ParentPos.steps_le {length : ℕ} {pos : ParentPos} (h : pos.Fits length) :
    pos.steps length ≤ 3 + 3 * length := by
  cases pos <;> simp only [ParentPos.Fits] at h <;> simp only [ParentPos.steps] <;> omega

theorem ChildPos.steps_le {length : ℕ} {pos : ChildPos} (h : pos.Fits length) :
    pos.steps length ≤ 3 + 2 * length := by
  cases pos <;> simp only [ChildPos.Fits] at h <;> simp only [ChildPos.steps] <;> omega

theorem ChildPos.printed_le {length : ℕ} {pos : ChildPos} (h : pos.Fits length) :
    pos.printed length ≤ length := by
  cases pos <;> simp only [ChildPos.Fits] at h <;> simp only [ChildPos.printed] <;> omega

theorem messages_handed_over (p : Setup) {es : List Event} (h : (machine p).Valid es) :
    HandedOver p es.length ((machine p).run es) := by
  have hinv : Invariant p ((machine p).run es) ∧
      ((machine p).run es).parent.steps p.length + ((machine p).run es).child.steps p.length =
        es.length := by
    induction es using List.reverseRecOn with
    | nil => exact ⟨invariant_initial, rfl⟩
    | append_singleton es e ih =>
      obtain ⟨hv, he⟩ := (Machine.valid_concat es e).mp h
      obtain ⟨hi, hsteps⟩ := ih hv
      obtain ⟨hi', hsteps'⟩ := invariant_next hi he
      rw [Machine.run_concat]
      refine ⟨hi', ?_⟩
      rw [List.length_append, List.length_singleton, ← hsteps]
      exact hsteps'
  obtain ⟨hi, hsteps⟩ := hinv
  generalize (machine p).run es = s at hi hsteps
  refine ⟨?_, ?_, ?_, ?_⟩
  · rw [hi.output]
    exact (Channel.prefix_range (ChildPos.printed_le hi.child)).map line
  · intro hkilled
    have hfits := hi.parent
    rw [hkilled] at hfits
    exact hfits
  · have hp := ParentPos.steps_le hi.parent
    have hc := ChildPos.steps_le hi.child
    omega
  · intro hstuck
    obtain ⟨hp, hc⟩ := hi.finished hstuck
    refine ⟨hp, hc, ?_⟩
    rw [hi.output, hc]
    rfl

/-- Two messages over a pipe that holds one and a half. -/
def two : Setup where
  length := 2
  capacity := 100
  stack _ := List.replicate messageSize 255
  msg := List.replicate messageSize 255
  small := by decide
  room := by decide
  sized _ := List.length_replicate
  sized' := List.length_replicate

/-- The parent waits for room after its first message. -/
def twoRun : List Event :=
  [.parent, .parent, .parent, .child, .parent, .child, .parent, .child, .parent, .parent, .parent,
    .child, .child, .child, .child, .parent]

theorem messages_handed_over_two :
    (machine two).Valid twoRun ∧ HandedOver two twoRun.length ((machine two).run twoRun) ∧
      ((machine two).run twoRun).parent = .exited :=
  ⟨by decide +kernel, messages_handed_over two (by decide +kernel), by decide +kernel⟩

end MessagePipe
