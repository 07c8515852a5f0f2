import LinuxLabs.Execution
import LinuxLabs.CString
import Mathlib.Data.List.Basic

/-! # The TCP echo client and server (networking lab 01)
Each side does one `read` per turn, and TCP may hand over any non-empty part of what is on
its way. The client takes the newline off before it sends a line, so nothing in the stream
says where a line ends. -/
namespace TcpEcho

open Execution CString

def bufferSize : ℕ := 1024

/-- A line without its newline, that fits into the client's buffer with it. -/
structure Line where
  text : List Byte
  fits : text.length + 1 < bufferSize
  noNul : (0 : Byte) ∉ text
  noNewline : newline ∉ text

theorem Line.text_inj {a b : Line} : a.text = b.text ↔ a = b := by
  constructor
  · intro h
    cases a
    cases b
    cases h
    rfl
  · exact congrArg Line.text

instance : DecidableEq Line := fun _ _ => decidable_of_iff _ Line.text_inj

/-- What the client leaves in its buffer of what `fgets` has read. -/
def Line.sent (line : Line) : List Byte := cstr (cutNewline (line.text ++ [newline]))

/-- `toServer` and `toClient` are the bytes on their way; `received` is what the server has read
and not yet written back. `waiting`: the client is at its `read`. -/
structure State where
  lines : List Line
  toServer : List Byte
  received : Option (List Byte)
  toClient : List Byte
  waiting : Bool
  echoes : List (List Byte)

def initial : State := ⟨[], [], none, [], false, []⟩

/-- The reads return the first `n` bytes that are on their way. -/
inductive Event where
  | line (line : Line)
  | serverRead (n : ℕ)
  | serverWrite
  | clientRead (n : ℕ)
  deriving DecidableEq

def Enabled (s : State) : Event → Prop
  | .line _ => s.waiting = false
  | .serverRead n => s.received = none ∧ 0 < n ∧ n ≤ s.toServer.length ∧ n ≤ bufferSize
  | .serverWrite => s.received ≠ none
  | .clientRead n => s.waiting = true ∧ 0 < n ∧ n ≤ s.toClient.length ∧ n ≤ bufferSize

def next (s : State) : Event → State
  | .line line =>
    { s with
      lines := s.lines ++ [line]
      toServer := s.toServer ++ line.sent
      waiting := true }
  | .serverRead n =>
    { s with received := some (s.toServer.take n), toServer := s.toServer.drop n }
  | .serverWrite =>
    { s with received := none, toClient := s.toClient ++ s.received.getD [] }
  | .clientRead n =>
    { s with
      toClient := s.toClient.drop n
      waiting := false
      echoes := s.echoes ++ [cstr (s.toClient.take n)] }

def machine : Machine State Event := ⟨initial, Enabled, next⟩

instance (s : State) (e : Event) : Decidable (Enabled s e) := by
  cases e <;> simp only [Enabled] <;> infer_instance

instance (s : State) (e : Event) : Decidable (machine.Enabled s e) :=
  inferInstanceAs (Decidable (Enabled s e))

/-- The bytes sent that the client has not read back yet. -/
def outstanding (s : State) : List Byte := s.toClient ++ s.received.getD [] ++ s.toServer

/-- The echo after the `k`-th line is that line, and a waiting client has a reply to come. -/
structure InStep (s : State) : Prop where
  echoed : s.echoes <+: s.lines.map Line.text
  answered : s.waiting = true → outstanding s ≠ []

/-- No line is empty, and a read of the client returns as many bytes as the line has. -/
def WholeReply (s : State) : Event → Prop
  | .line line => line.text ≠ []
  | .clientRead n => ∀ line ∈ s.lines.getLast?, n = line.text.length
  | _ => True

instance (s : State) : Decidable (InStep s) :=
  decidable_of_iff (s.echoes <+: s.lines.map Line.text ∧
    (s.waiting = true → outstanding s ≠ [])) ⟨fun h => ⟨h.1, h.2⟩, fun h => ⟨h.1, h.2⟩⟩

instance (s : State) (e : Event) : Decidable (WholeReply s e) := by
  cases e <;> simp only [WholeReply] <;> infer_instance

variable {s : State} {e : Event}

/-! ## The bytes on their way -/

theorem sent_eq (line : Line) : line.sent = line.text := by
  have hcut : cutNewline (line.text ++ [newline]) = line.text := by
    have hpos : ∀ b ∈ line.text, decide (b ≠ newline) = true := by
      intro b hb
      apply decide_eq_true
      rintro rfl
      exact line.noNewline hb
    rw [cutNewline, List.takeWhile_append_of_pos hpos, List.takeWhile_cons_of_neg (by simp),
      List.append_nil]
  rw [Line.sent, hcut, cstr_of_noNul line.noNul]

/-- Reading and writing back on the server moves bytes along. -/
theorem outstanding_serverRead (h : s.received = none) (n : ℕ) :
    outstanding (next s (.serverRead n)) = outstanding s := by
  simp [outstanding, next, h]

theorem outstanding_serverWrite (s : State) :
    outstanding (next s .serverWrite) = outstanding s := by
  simp [outstanding, next]

theorem outstanding_line (s : State) (line : Line) :
    outstanding (next s (.line line)) = outstanding s ++ line.text := by
  simp [outstanding, next, sent_eq]

theorem outstanding_clientRead (s : State) (n : ℕ) :
    s.toClient.take n ++ outstanding (next s (.clientRead n)) = outstanding s := by
  simp only [outstanding, next]
  rw [← List.append_assoc, ← List.append_assoc, List.take_append_drop]

structure Invariant (s : State) : Prop where
  turns : s.lines.length = s.echoes.length + s.waiting.toNat
  conserved : s.lines.flatMap Line.text = s.echoes.flatten ++ outstanding s

theorem Invariant.noNul (h : Invariant s) : (0 : Byte) ∉ outstanding s := by
  intro h0
  have hmem : (0 : Byte) ∈ s.lines.flatMap Line.text := by
    rw [h.conserved]
    exact List.mem_append_right _ h0
  obtain ⟨line, -, hline⟩ := List.mem_flatMap.mp hmem
  exact line.noNul hline

/-- The client prints what it reads. -/
theorem Invariant.echo (h : Invariant s) (n : ℕ) :
    cstr (s.toClient.take n) = s.toClient.take n := by
  apply cstr_of_noNul
  intro h0
  apply h.noNul
  apply List.mem_append_left
  exact List.mem_append_left _ (List.mem_of_mem_take h0)

theorem invariant_initial : Invariant initial := ⟨rfl, rfl⟩

theorem invariant_next (h : Invariant s) (he : Enabled s e) : Invariant (next s e) := by
  cases e with
  | line line =>
    have hturns := h.turns
    simp only [Enabled] at he
    constructor
    · simp only [next, List.length_append, List.length_singleton, hturns, he, Bool.toNat_false,
        Bool.toNat_true, Nat.add_zero]
    · rw [outstanding_line]
      simp only [next, List.flatMap_append, List.flatMap_singleton, h.conserved,
        List.append_assoc]
  | serverRead n =>
    refine ⟨h.turns, ?_⟩
    rw [outstanding_serverRead he.1]
    exact h.conserved
  | serverWrite =>
    refine ⟨h.turns, ?_⟩
    rw [outstanding_serverWrite]
    exact h.conserved
  | clientRead n =>
    obtain ⟨hw, -⟩ := he
    have hturns := h.turns
    constructor
    · simp only [next, List.length_append, List.length_singleton, hturns, hw, Bool.toNat_false,
        Bool.toNat_true, Nat.add_zero]
    · have hout := outstanding_clientRead s n
      have hechoes : (next s (.clientRead n)).echoes = s.echoes ++ [s.toClient.take n] := by
        simp only [next, h.echo]
      rw [hechoes, List.flatten_append, List.flatten_singleton, List.append_assoc, hout]
      exact h.conserved

theorem invariant_run {es : List Event} (h : machine.Valid es) : Invariant (machine.run es) :=
  Machine.invariant invariant_initial (fun _ _ => invariant_next) h

/-! ## One line at a time -/

/-- In step and not waiting, everything has come back. -/
theorem InStep.settled (h : InStep s) (hi : Invariant s) (hw : s.waiting = false) :
    s.echoes = s.lines.map Line.text ∧ outstanding s = [] := by
  have hturns := hi.turns
  rw [hw, Bool.toNat_false, Nat.add_zero] at hturns
  have heq : s.echoes = s.lines.map Line.text :=
    h.echoed.eq_of_length (by rw [List.length_map, hturns])
  refine ⟨heq, ?_⟩
  have hc := hi.conserved
  rw [heq, ← List.flatMap_def] at hc
  exact List.self_eq_append_right.mp hc

/-- In step and waiting, the last line is what is on its way. -/
theorem InStep.pending (h : InStep s) (hi : Invariant s) (hw : s.waiting = true) :
    ∃ lines line, s.lines = lines ++ [line] ∧ s.echoes = lines.map Line.text ∧
      outstanding s = line.text := by
  have hturns := hi.turns
  rw [hw, Bool.toNat_true] at hturns
  have hne : s.lines ≠ [] := by
    intro hnil
    rw [hnil] at hturns
    simp at hturns
  obtain ⟨lines, line, hlines⟩ := (List.eq_nil_or_concat' s.lines).resolve_left hne
  have hlen : s.echoes.length = (lines.map Line.text).length := by
    rw [hlines, List.length_append, List.length_singleton] at hturns
    rw [List.length_map]
    omega
  have hechoes : s.echoes = lines.map Line.text := by
    have hpre := h.echoed
    rw [hlines, List.map_append] at hpre
    have hle : s.echoes.length ≤ (lines.map Line.text).length := hlen.le
    exact (List.prefix_of_prefix_length_le hpre (List.prefix_append _ _) hle).eq_of_length hlen
  refine ⟨lines, line, hlines, hechoes, ?_⟩
  have hc := hi.conserved
  rw [hlines, hechoes, List.flatMap_append, List.flatMap_singleton, ← List.flatMap_def] at hc
  exact (List.append_cancel_left hc).symm

theorem inStep_line (h : InStep s) (hi : Invariant s) (hw : s.waiting = false) (line : Line) :
    InStep (next s (.line line)) ↔ line.text ≠ [] := by
  obtain ⟨heq, hout⟩ := h.settled hi hw
  have hout' : outstanding (next s (.line line)) = line.text := by
    rw [outstanding_line, hout, List.nil_append]
  constructor
  · intro h'
    rw [← hout']
    exact h'.answered rfl
  · intro hne
    refine ⟨?_, fun _ => hout' ▸ hne⟩
    simp only [next, List.map_append, heq]
    exact List.prefix_append _ _

theorem inStep_clientRead (h : InStep s) (hi : Invariant s) {n : ℕ}
    (he : Enabled s (.clientRead n)) :
    InStep (next s (.clientRead n)) ↔ ∀ line ∈ s.lines.getLast?, n = line.text.length := by
  obtain ⟨hw, -, hn, -⟩ := he
  obtain ⟨lines, line, hlines, hechoes, hout⟩ := h.pending hi hw
  have hread : s.toClient.take n <+: line.text := by
    rw [← hout, ← outstanding_clientRead s n]
    exact List.prefix_append _ _
  have hlen : (s.toClient.take n).length = n := List.length_take_of_le hn
  have hwhole : s.toClient.take n = line.text ↔ n = line.text.length := by
    constructor
    · intro heq
      rw [← hlen, heq]
    · intro heq
      exact hread.eq_of_length (by rw [hlen, heq])
  have hlast : (∀ line ∈ s.lines.getLast?, n = line.text.length) ↔ n = line.text.length := by
    rw [hlines, List.getLast?_concat]
    simp
  rw [hlast, ← hwhole]
  have hnext : (next s (.clientRead n)).echoes = lines.map Line.text ++ [s.toClient.take n] := by
    simp only [next, hi.echo, hechoes]
  have hall : (next s (.clientRead n)).lines.map Line.text =
      lines.map Line.text ++ [line.text] := by
    simp only [next, hlines, List.map_append, List.map_singleton]
  constructor
  · intro h'
    have hpre := h'.echoed
    rw [hnext, hall, List.prefix_append_right_inj] at hpre
    exact List.singleton_inj.mp (hpre.eq_of_length rfl)
  · intro heq
    refine ⟨?_, fun hw' => ?_⟩
    · have heq' : (next s (.clientRead n)).echoes =
          (next s (.clientRead n)).lines.map Line.text := by
        rw [hnext, hall, heq]
      exact heq' ▸ List.prefix_rfl
    · cases hw'

theorem inStep_iff (h : InStep s) (hi : Invariant s) (he : Enabled s e) :
    InStep (next s e) ↔ WholeReply s e := by
  cases e with
  | line line => exact inStep_line h hi he line
  | clientRead n => exact inStep_clientRead h hi he
  | serverRead n =>
    refine iff_of_true ⟨h.echoed, fun hw => ?_⟩ trivial
    rw [outstanding_serverRead he.1]
    exact h.answered hw
  | serverWrite =>
    refine iff_of_true ⟨h.echoed, fun hw => ?_⟩ trivial
    rw [outstanding_serverWrite]
    exact h.answered hw

/-- The two stay in step in the runs with whole replies to non-empty lines, and in no others. -/
theorem in_step_iff {es : List Event} (h : machine.Valid es) :
    machine.Along WholeReply es ↔ machine.Along (fun s e => InStep (next s e)) es :=
  Machine.along_iff_reached ⟨List.prefix_rfl, by simp [machine, initial]⟩
    (fun _ _ hv he hs => inStep_iff hs (invariant_run hv) he) h

def hello : Line := ⟨ascii "hello", by decide, by decide, by decide⟩

/-- The server may see a line in two parts, as long as the client sees it whole. -/
theorem in_step_hello : machine.Along (fun s e => InStep (next s e)) [.line hello, .serverRead 2,
    .serverWrite, .serverRead 3, .serverWrite, .clientRead 5] :=
  (in_step_iff (by decide)).mp (by decide)

def emptyLine : Line := ⟨[], by decide, CString.CharArray.nul_notMem_nil, by decide⟩

/-- An empty line is not sent, so no reply will come; and where a reply is read in two parts, the
second one is printed with the echo of the next line. -/
theorem empty_or_split_out_of_step :
    (machine.Valid [.line emptyLine] ∧ ¬ InStep (machine.run [.line emptyLine])) ∧
    machine.Valid [.line hello, .serverRead 2, .serverWrite, .clientRead 2, .line hello,
        .serverRead 8, .serverWrite, .clientRead 8] ∧
      ¬ InStep (machine.run [.line hello, .serverRead 2, .serverWrite, .clientRead 2,
        .line hello, .serverRead 8, .serverWrite, .clientRead 8]) := by
  decide

end TcpEcho
