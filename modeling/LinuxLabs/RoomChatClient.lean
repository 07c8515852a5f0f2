import LinuxLabs.RoomChatSegmentation

/-! # What the client of the room chat shows
`receiver` prints each `recv` result as a string, so it stops at a NUL. One reply of the server
is sent with its terminator, and what arrives behind it in the same `recv` is lost. -/
namespace RoomChatClient

open Execution CString RoomChatServer RoomChatSegmentation

/-- What `receiver` prints for the successive `recv` results: `buf[n] = '\0'; printf("%s", buf)`. -/
def receiver (pieces : List (List Byte)) : List Byte := pieces.flatMap fun buf => cstr (buf ++ [0])

/-- What the server sends to the client on `fd` while it handles these events. -/
def messages (reserved : Finset Fd) (s : Server) (es : List Event) (fd : Fd) : List (List Byte) :=
  sentTo fd ((machine reserved).observeFrom (fun s e => (serve s e).2) s es)

/-- The strings of the messages, without their terminators. -/
def texts (msgs : List (List Byte)) : List Byte := msgs.flatMap cstr

/-- Nothing but NULs behind a NUL. -/
def NothingBehindNul (buf : List Byte) : Prop := ∀ b ∈ buf.dropWhile (· ≠ 0), b = 0

instance (buf : List Byte) : Decidable (NothingBehindNul buf) :=
  inferInstanceAs (Decidable (∀ b ∈ buf.dropWhile (· ≠ 0), b = 0))

variable {reserved : Finset Fd} {s : Server} {fd : Fd} {buf : List Byte}

/-! ## The messages of the server -/

/-- A string, as its characters or with its terminator. -/
inductive Message : List Byte → Prop where
  | characters {text : List Byte} (noNul : (0 : Byte) ∉ text) : Message text
  | terminated {text : List Byte} (noNul : (0 : Byte) ∉ text) : Message (text ++ [0])

theorem noNul_append {a b : List Byte} (ha : (0 : Byte) ∉ a) (hb : (0 : Byte) ∉ b) :
    (0 : Byte) ∉ a ++ b :=
  fun h => (List.mem_append.mp h).elim ha hb

theorem noNul_ite {p : Prop} [Decidable p] {a b : List Byte} (ha : (0 : Byte) ∉ a)
    (hb : (0 : Byte) ∉ b) : (0 : Byte) ∉ if p then a else b := by
  split
  · exact ha
  · exact hb

theorem listResponse_noNul (s : Server) (self : Client) : (0 : Byte) ∉ listResponse s self := by
  refine noNul_append (by decide) fun h => ?_
  obtain ⟨c, -, hc⟩ := List.mem_flatMap.mp h
  have hshown : (0 : Byte) ∉ if c.name.text ≠ [] then c.name.text else ascii "(unnamed)" :=
    noNul_ite c.name.noNul (by decide)
  exact noNul_append (noNul_append (by decide) hshown) (by decide) hc

theorem chatMessage_noNul (sender : Client) (buf : List Byte) :
    (0 : Byte) ∉ chatMessage sender buf := by
  have hname : (0 : Byte) ∉ if sender.name.text ≠ [] then sender.name.text else ascii "anon" :=
    noNul_ite sender.name.noNul (by decide)
  refine snprintf_noNul (noNul_append (noNul_append (noNul_append (noNul_append (noNul_append
    (by decide) hname) (by decide)) sender.room.noNul) (by decide)) (cstr_noNul buf)) _

theorem broadcast_messages {room msg : List Byte} (hmsg : Message msg) :
    ∀ m ∈ broadcastRoom s room msg fd, Message m.2 := by
  intro m hm
  obtain ⟨c, -, -, rfl⟩ := RoomChatIsolation.mem_broadcastRoom.mp hm
  exact hmsg

theorem reply_message {text : List Byte} (h : (0 : Byte) ∉ text) :
    ∀ m ∈ [(fd, text)], Message m.2 := by
  intro m hm
  rw [List.mem_singleton.mp hm]
  exact .characters h

theorem perform_messages (s : Server) (self : Client) (buf : List Byte) :
    ∀ m ∈ (perform s self buf (commandOf buf)).2, Message m.2 := by
  intro m hm
  cases hcmd : commandOf buf with
  | nick name =>
    rw [hcmd, perform, nick] at hm
    exact reply_message (snprintf_noNul (noNul_append (noNul_append (by decide)
      (CharArray.noNul _)) (by decide)) _) m hm
  | join room =>
    rw [hcmd, perform, join] at hm
    have hack : (0 : Byte) ∉ ascii "[Server] Joined room '" ++ room ++ ascii "'\n" :=
      noNul_append (noNul_append (by decide) (join_noNul hcmd)) (by decide)
    have hnotice : (0 : Byte) ∉
        ascii "[Server] " ++ self.name.text ++ ascii " joined the room.\n" :=
      noNul_append (noNul_append (by decide) self.name.noNul) (by decide)
    rcases List.mem_cons.mp hm with rfl | hm
    · exact .characters (snprintf_noNul hack _)
    · exact broadcast_messages (.characters (snprintf_noNul hnotice _)) m hm
  | leave =>
    rw [hcmd, perform, leave] at hm
    split at hm
    · have hnotice : (0 : Byte) ∉ ascii "[Server] " ++ self.name.text ++ ascii " left room '" ++
          self.room.text ++ ascii "'\n" :=
        noNul_append (noNul_append (noNul_append (noNul_append (by decide) self.name.noNul)
          (by decide)) self.room.noNul) (by decide)
      rcases List.mem_append.mp hm with hm | hm
      · exact broadcast_messages (.characters (snprintf_noNul hnotice _)) m hm
      · rw [List.mem_singleton.mp hm]
        exact .terminated (by decide)
    · exact reply_message (by decide) m hm
  | list =>
    rw [hcmd, perform] at hm
    exact reply_message (listResponse_noNul s self) m hm
  | quit =>
    rw [hcmd, perform, quit] at hm
    exact reply_message (by decide) m hm
  | unknown =>
    rw [hcmd, perform] at hm
    exact reply_message (by decide) m hm
  | chat =>
    rw [hcmd, perform] at hm
    split at hm
    · exact reply_message (by decide) m hm
    · exact broadcast_messages (.characters (chatMessage_noNul self buf)) m hm

theorem serve_messages (s : Server) (e : Event) : ∀ m ∈ (serve s e).2, Message m.2 := by
  intro m hm
  cases e with
  | accept fd =>
    rw [serve] at hm
    exact reply_message (by decide) m hm
  | acceptFailed | hangup => cases hm
  | receive fd buf =>
    rw [serve] at hm
    cases hfind : findClientByFd s fd with
    | some self =>
      rw [receive_eq_perform hfind] at hm
      exact perform_messages s self buf m hm
    | none =>
      rw [receive, handleCommand, hfind] at hm
      split at hm
      · cases hm
      · exact reply_message (by decide) m hm

theorem messages_are (reserved : Finset Fd) (s : Server) (es : List Event) (fd : Fd) :
    ∀ m ∈ messages reserved s es fd, Message m := by
  induction es generalizing s with
  | nil =>
    intro m hm
    cases hm
  | cons e es ih =>
    intro m hm
    rw [messages, Machine.observeFrom, sentTo_append] at hm
    rcases List.mem_append.mp hm with hm | hm
    · obtain ⟨x, hx, rfl⟩ := List.mem_map.mp hm
      exact serve_messages s e x (List.mem_filter.mp hx).1
    · exact ih _ m hm

/-! ## What is printed of a stream -/

def nonNuls (buf : List Byte) : List Byte := buf.filter (· ≠ 0)

theorem nonNuls_split (buf : List Byte) :
    nonNuls buf = cstr buf ++ nonNuls (buf.dropWhile (· ≠ 0)) := by
  have hfront : nonNuls (cstr buf) = cstr buf := by
    refine List.filter_eq_self.mpr fun b hb => ?_
    have hne : b ≠ 0 := fun hz => cstr_noNul buf (hz ▸ hb)
    simpa using hne
  calc nonNuls buf = nonNuls (cstr buf ++ buf.dropWhile (· ≠ 0)) := by
        rw [cstr, List.takeWhile_append_dropWhile]
    _ = nonNuls (cstr buf) ++ nonNuls (buf.dropWhile (· ≠ 0)) := List.filter_append ..
    _ = cstr buf ++ nonNuls (buf.dropWhile (· ≠ 0)) := by rw [hfront]

theorem nothingBehind_iff (buf : List Byte) :
    NothingBehindNul buf ↔ nonNuls (buf.dropWhile (· ≠ 0)) = [] := by
  rw [nonNuls, List.filter_eq_nil_iff]
  exact forall₂_congr fun b _ => by simp

theorem Message.nothingBehind {m : List Byte} (h : Message m) : NothingBehindNul m := by
  have hskip {text : List Byte} (ht : (0 : Byte) ∉ text) (rest : List Byte) :
      (text ++ rest).dropWhile (· ≠ 0) = rest.dropWhile (· ≠ 0) :=
    List.dropWhile_append_of_pos fun b hb => by
      have hne : b ≠ 0 := fun hz => ht (hz ▸ hb)
      simpa using hne
  cases h with
  | @characters _ ht =>
    rw [NothingBehindNul, ← List.append_nil m, hskip ht]
    simp
  | terminated ht =>
    rw [NothingBehindNul, hskip ht]
    simp

theorem printed_le (pieces : List (List Byte)) :
    (pieces.flatMap cstr).length ≤ (pieces.flatMap nonNuls).length := by
  induction pieces with
  | nil => exact Nat.le_refl _
  | cons buf pieces ih =>
    rw [List.flatMap_cons, List.flatMap_cons, nonNuls_split buf]
    simp only [List.length_append]
    omega

/-- Nothing is missing exactly when only NULs are behind the first NUL of each piece. -/
theorem flatMap_cstr_eq_iff (pieces : List (List Byte)) :
    pieces.flatMap cstr = pieces.flatMap nonNuls ↔ ∀ buf ∈ pieces, NothingBehindNul buf := by
  induction pieces with
  | nil => simp
  | cons buf pieces ih =>
    rw [List.forall_mem_cons, ← ih, nothingBehind_iff, List.flatMap_cons, List.flatMap_cons,
      nonNuls_split buf, List.append_assoc, List.append_cancel_left_eq]
    constructor
    · intro heq
      have hlength := congrArg List.length heq
      have hle := printed_le pieces
      rw [List.length_append] at hlength
      have hnil : nonNuls (buf.dropWhile (· ≠ 0)) = [] := List.eq_nil_of_length_eq_zero (by omega)
      rw [hnil, List.nil_append] at heq
      exact ⟨hnil, heq⟩
    · rintro ⟨hnil, heq⟩
      rw [hnil, heq, List.nil_append]

theorem cstr_terminated (buf : List Byte) : cstr (buf ++ [0]) = cstr buf := by
  induction buf with
  | nil => rfl
  | cons b buf ih =>
    by_cases hb : b = 0
    · simp [cstr, hb]
    · simpa [cstr, hb] using ih

theorem receiver_eq (pieces : List (List Byte)) : receiver pieces = pieces.flatMap cstr :=
  List.flatMap_congr fun buf _ => cstr_terminated buf

/-- What the client prints of what it is sent, however its stream is cut, is the strings of the
messages exactly when no `recv` returns anything behind a terminator. -/
theorem shown_iff (reserved : Finset Fd) (s : Server) (es : List Event) (fd : Fd)
    (pieces : List (List Byte)) (h : Cut (messages reserved s es fd).flatten pieces) :
    receiver pieces = texts (messages reserved s es fd) ↔
      ∀ buf ∈ pieces, NothingBehindNul buf := by
  have hflatten (ms : List (List Byte)) : nonNuls ms.flatten = ms.flatMap nonNuls := by
    rw [nonNuls, List.filter_flatten]
    rfl
  have htexts : texts (messages reserved s es fd) =
      nonNuls (messages reserved s es fd).flatten := by
    rw [hflatten, texts]
    exact (flatMap_cstr_eq_iff _).mpr fun m hm => (messages_are reserved s es fd m hm).nothingBehind
  rw [receiver_eq, htexts, ← h.joined, hflatten, flatMap_cstr_eq_iff]

/-- A member leaves its room, and each message arrives on its own. -/
theorem shown_separately :
    receiver [ascii "[Server] Welcome! Use /nick, /join, /list, /quit.\n",
        ascii "[Server] Joined room 'a'\n", ascii "[Server] You left the room.\n" ++ [0],
        ascii "[Server] Unknown command.\n"] =
      texts (messages {0, 1, 2, 3, 4} ⟨[], {0, 1, 2, 3, 4}⟩ [.accept 5,
        .receive 5 (ascii "/join a\n"), .receive 5 (ascii "/leave\n"),
        .receive 5 (ascii "/x\n")] 5) :=
  (shown_iff {0, 1, 2, 3, 4} _ _ 5 _ ⟨by decide, by decide⟩).mpr (by decide +kernel)

/-- The same, with the last two messages in one `recv`: the second of them is not shown. -/
theorem coalesced_not_shown :
    ¬ ∀ es fd pieces, (machine {0, 1, 2, 3, 4}).Valid es →
      Cut (messages {0, 1, 2, 3, 4} ⟨[], {0, 1, 2, 3, 4}⟩ es fd).flatten pieces →
      receiver pieces = texts (messages {0, 1, 2, 3, 4} ⟨[], {0, 1, 2, 3, 4}⟩ es fd) := by
  intro hall
  have heq := hall [.accept 5, .receive 5 (ascii "/join a\n"), .receive 5 (ascii "/leave\n"),
    .receive 5 (ascii "/x\n")] 5
    [ascii "[Server] Welcome! Use /nick, /join, /list, /quit.\n",
      ascii "[Server] Joined room 'a'\n",
      ascii "[Server] You left the room.\n" ++ 0 :: ascii "[Server] Unknown command.\n"]
    (by decide) ⟨by decide, by decide⟩
  revert heq
  decide

end RoomChatClient
