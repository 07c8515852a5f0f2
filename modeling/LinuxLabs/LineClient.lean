import LinuxLabs.LineInput

/-! # The clients that send their lines (labs 03 and 05)
The loop is the same in both: `fgets`, `exit` stops, and what is sent is the string in the buffer.
A long line goes in pieces, so a piece of one may be what stops the client. -/
namespace LineClient

open CString LineInput

def bufSize : ℕ := 1024

def quits (message : List Byte) : Bool := strncmp (cstr message) (ascii "exit") 4

/-- `rest` is the input that is not read yet. What `fgets` returned, and what was given to the
socket, is history. -/
structure Client where
  rest : List Byte
  closed : Bool
  read : List (List Byte)
  handed : List (List Byte)

def start (input : List Byte) : Client := ⟨input, false, [], []⟩

/-- A round of the loop, and the message it sends. -/
def Client.round (client : Client) : Client × Option (List Byte) :=
  match fgets bufSize client.rest with
  | none => ({ client with closed := true }, none)
  | some (message, rest) =>
    let client := { client with rest := rest, read := client.read ++ [message] }
    if quits message then ({ client with closed := true }, none)
    else ({ client with handed := client.handed ++ [cstr message] }, some (cstr message))

/-- What `fgets` returned was sent, up to what made the client stop. -/
def Handled (client : Client) : Prop :=
  ∃ last, client.read.map cstr = client.handed ++ last ∧ (∀ m ∈ client.handed, quits m = false) ∧
    (last = [] ∨ client.closed = true ∧ ∃ m, last = [m] ∧ quits m = true)

structure Sound (input : List Byte) (client : Client) : Prop where
  reads : Reads bufSize input client.read client.rest
  handled : Handled client
  closed : client.closed = true →
    client.rest = [] ∨ ∃ m, client.read.getLast? = some m ∧ quits m = true

/-- What one `send` is called with. -/
structure Message (m : List Byte) : Prop where
  fits : m.length ≤ bufSize - 1
  noNul : (0 : Byte) ∉ m
  line : Line m

variable {input : List Byte} {client : Client} {m : List Byte}

theorem quits_cstr (m : List Byte) : quits (cstr m) = quits m := by
  rw [quits, cstr_of_noNul (cstr_noNul m), quits]

/-- A client that goes on has sent all it read. -/
theorem Handled.all (h : Handled client) (hopen : client.closed = false) :
    client.read.map cstr = client.handed := by
  obtain ⟨last, hread, -, rfl | ⟨hc, -⟩⟩ := h
  · rw [hread, List.append_nil]
  · rw [hopen] at hc
    cases hc

theorem Sound.message (h : Sound input client) (hm : m ∈ client.handed) : Message m := by
  obtain ⟨last, hread, -⟩ := h.handled
  have hmem : m ∈ client.read.map cstr := by
    rw [hread]
    exact List.mem_append_left _ hm
  obtain ⟨piece, hpiece, rfl⟩ := List.mem_map.mp hmem
  obtain ⟨-, hlen, hline⟩ := h.reads.of_mem hpiece
  have hp : cstr piece <+: piece := List.takeWhile_prefix _
  exact ⟨hp.length_le.trans hlen, cstr_noNul piece, hline.initial hp⟩

theorem Sound.start (input : List Byte) : Sound input (start input) := by
  refine ⟨.nil, ⟨[], rfl, ?_, Or.inl rfl⟩, nofun⟩
  intro m hm
  cases hm

theorem Sound.round (h : Sound input client) (hopen : client.closed = false) :
    Sound input client.round.1 ∧
      client.round.1.handed = client.handed ++ client.round.2.toList := by
  have hall := h.handled.all hopen
  obtain ⟨-, -, hkept, -⟩ := h.handled
  unfold Client.round
  cases hf : fgets bufSize client.rest with
  | none =>
    refine ⟨⟨h.reads, ⟨[], ?_, hkept, Or.inl rfl⟩, ?_⟩, (List.append_nil _).symm⟩
    · rw [List.append_nil]
      exact hall
    · exact fun _ => Or.inl ((fgets_none (by decide)).mp hf)
  | some p =>
    obtain ⟨message, rest⟩ := p
    have hreads := h.reads.concat hf
    dsimp only
    split_ifs with hq
    · refine ⟨⟨hreads, ⟨[cstr message], ?_, hkept, Or.inr ⟨rfl, cstr message, rfl, ?_⟩⟩, ?_⟩, ?_⟩
      · simp only [List.map_append, hall]
        rfl
      · rw [quits_cstr, hq]
      · exact fun _ => Or.inr ⟨message, List.getLast?_concat, hq⟩
      · exact (List.append_nil _).symm
    · refine ⟨⟨hreads, ⟨[], ?_, ?_, Or.inl rfl⟩, ?_⟩, rfl⟩
      · simp only [List.map_append, hall, List.append_nil]
        rfl
      · intro x hx
        rcases List.mem_append.mp hx with hx | hx
        · exact hkept x hx
        · rw [List.mem_singleton.mp hx, quits_cstr]
          exact Bool.eq_false_iff.mpr hq
      · exact fun hc => absurd (hopen.symm.trans hc) Bool.false_ne_true

end LineClient
