import LinuxLabs.CommandChatServer
import LinuxLabs.RoomChatNotices

/-! # What the chat servers build in their buffers (labs 17 and 18)
The replies to `/list` are built by `strcat` without a bound, chat messages by `snprintf` with
one. Both buffers have `BUF_SIZE` bytes, as many as the one a chunk is received in. -/
namespace ChatBuffers

open Execution CString

/-- The contents of `response` before the first and after each of the `strcat` calls. -/
def strcats (response : List Byte) : List (List Byte) → List (List Byte)
  | [] => [response]
  | piece :: pieces => response :: strcats (response ++ piece) pieces

/-- The name as `/list` shows it. -/
def shown (name : List Byte) : List Byte := if name ≠ [] then name else ascii "(unnamed)"

/-- The loop of `/list`, for the names of the clients it lists. -/
def listStrings (header : List Byte) (names : List (List Byte)) : List (List Byte) :=
  strcats header (names.flatMap fun name => [ascii " - ", shown name, [newline]])

/-- Each of them has room for its terminator. -/
def Fits (size : ℕ) (strings : List (List Byte)) : Prop := ∀ str ∈ strings, str.length + 1 ≤ size

instance (size : ℕ) (strings : List (List Byte)) : Decidable (Fits size strings) :=
  inferInstanceAs (Decidable (∀ str ∈ strings, _))

/-- What one client adds to the list. -/
def entryLength (name : List Byte) : ℕ := 4 + (shown name).length

/-- The string only grows, so the last one decides. -/
theorem fits_strcats {size : ℕ} (response : List Byte) (pieces : List (List Byte)) :
    Fits size (strcats response pieces) ↔ (response ++ pieces.flatten).length + 1 ≤ size := by
  induction pieces generalizing response with
  | nil => simp [Fits, strcats]
  | cons piece pieces ih =>
    have hcons : Fits size (strcats response (piece :: pieces)) ↔
        response.length + 1 ≤ size ∧ Fits size (strcats (response ++ piece) pieces) := by
      simp [Fits, strcats]
    rw [hcons, ih, List.flatten_cons, List.append_assoc]
    simp only [List.length_append]
    omega

theorem entries_length (names : List (List Byte)) :
    (names.flatMap fun name => [ascii " - ", shown name, [newline]]).flatten.length =
      (names.map entryLength).sum := by
  induction names with
  | nil => rfl
  | cons name names ih =>
    have hdash : (ascii " - ").length = 3 := by decide
    rw [List.flatMap_cons, List.flatten_append, List.length_append, ih, List.map_cons,
      List.sum_cons, entryLength]
    simp only [List.flatten_cons, List.flatten_nil, List.length_append, hdash,
      List.length_singleton, List.length_nil]
    omega

theorem fits_list_iff {size : ℕ} (header : List Byte) (names : List (List Byte)) :
    Fits size (listStrings header names) ↔
      header.length + (names.map entryLength).sum + 1 ≤ size := by
  rw [listStrings, fits_strcats, List.length_append, entries_length]

/-! ## The two servers -/

def roomHeader : List Byte := ascii "[Server] Users in your room:\n"

def usersHeader : List Byte := ascii "[Server] Connected users:\n"

/-- The names that `/list` of lab 18 shows to `self`. -/
def roomNames (s : RoomChatServer.Server) (self : RoomChatServer.Client) : List (List Byte) :=
  (s.clients.filter fun c => c.room.text = self.room.text).map fun c => c.name.text

def userNames (s : CommandChatServer.Server) : List (List Byte) :=
  s.clients.map fun c => c.name.text

def roomList (s : RoomChatServer.Server) (self : RoomChatServer.Client) : List (List Byte) :=
  listStrings roomHeader (roomNames s self)

def userList (s : CommandChatServer.Server) : List (List Byte) :=
  listStrings usersHeader (userNames s)

theorem strcats_last (response : List Byte) (pieces : List (List Byte)) :
    (strcats response pieces).getLast? = some (response ++ pieces.flatten) := by
  induction pieces generalizing response with
  | nil => simp [strcats]
  | cons piece pieces ih =>
    have hne : strcats (response ++ piece) pieces ≠ [] := by cases pieces <;> simp [strcats]
    rw [strcats, List.getLast?_cons_of_ne_nil hne, ih, List.flatten_cons, List.append_assoc]

theorem listStrings_last (header : List Byte) (names : List (List Byte)) :
    (listStrings header names).getLast? =
      some (header ++ names.flatMap fun name => ascii " - " ++ shown name ++ [newline]) := by
  rw [listStrings, strcats_last]
  induction names with
  | nil => rfl
  | cons name names ih =>
    have hrest := List.append_cancel_left (Option.some.inj ih)
    rw [List.flatMap_cons, List.flatten_append, hrest, List.flatMap_cons]
    simp

/-- The last string is the one that is sent. -/
theorem roomList_last (s : RoomChatServer.Server) (self : RoomChatServer.Client) :
    (roomList s self).getLast? = some (RoomChatServer.listResponse s self) := by
  rw [roomList, listStrings_last, roomNames, List.flatMap_map]
  rfl

theorem userList_last (s : CommandChatServer.Server) :
    (userList s).getLast? = some (CommandChatServer.listResponse s) := by
  rw [userList, listStrings_last, userNames, List.flatMap_map]
  rfl

/-- The strings of `/list` fit `response` exactly while what the listed clients add, four bytes
and the name that is shown, leaves room for the header and the terminator. -/
theorem list_fits_iff (s : RoomChatServer.Server) (self : RoomChatServer.Client)
    (users : CommandChatServer.Server) :
    (Fits RoomChatServer.bufSize (roomList s self) ↔
      ((roomNames s self).map entryLength).sum ≤ 994) ∧
    (Fits CommandChatServer.bufSize (userList users) ↔
      ((userNames users).map entryLength).sum ≤ 997) := by
  have hroom : roomHeader.length = 29 := by decide
  have husers : usersHeader.length = 26 := by decide
  constructor
  · rw [roomList, fits_list_iff, hroom, RoomChatServer.bufSize]
    omega
  · rw [userList, fits_list_iff, husers, CommandChatServer.bufSize]
    omega

/-- 77 connections that have not sent anything, and the last one lists its room. -/
theorem list_overflows :
    ¬ ∀ es, (RoomChatServer.machine {0, 1, 2, 3, 4}).Valid es →
      ∀ self ∈ ((RoomChatServer.machine {0, 1, 2, 3, 4}).run es).clients,
        Fits RoomChatServer.bufSize
          (roomList ((RoomChatServer.machine {0, 1, 2, 3, 4}).run es) self) := by
  intro hall
  have hf := hall ((List.range 77).map fun i => .accept (5 + i)) (by decide +kernel)
    ⟨81, .empty, .empty⟩ (by decide +kernel)
  rw [roomList, fits_list_iff] at hf
  revert hf
  decide +kernel

/-- The names that fit their arrays: 28 of them are never too many. -/
theorem entries_le {names : List (List Byte)} (h : ∀ name ∈ names, name.length < 32) :
    (names.map entryLength).sum ≤ 35 * names.length := by
  induction names with
  | nil => simp
  | cons name names ih =>
    have hrest := ih fun n hn => h n (List.mem_cons_of_mem _ hn)
    have hname : entryLength name ≤ 35 := by
      have hlt := h name List.mem_cons_self
      have hunnamed : (ascii "(unnamed)").length = 9 := by decide
      unfold entryLength shown
      split <;> omega
    rw [List.map_cons, List.sum_cons, List.length_cons]
    omega

theorem room_list_few {s : RoomChatServer.Server} {self : RoomChatServer.Client}
    (h : (roomNames s self).length ≤ 28) :
    Fits RoomChatServer.bufSize (roomList s self) := by
  have hnames : ∀ name ∈ roomNames s self, name.length < 32 := by
    intro name hn
    obtain ⟨c, -, rfl⟩ := List.mem_map.mp hn
    exact c.name.fits
  have hle := entries_le hnames
  rw [roomList, fits_list_iff, show roomHeader.length = 29 from by decide, RoomChatServer.bufSize]
  omega

theorem user_list_few {s : CommandChatServer.Server} (h : s.clients.length ≤ 28) :
    Fits CommandChatServer.bufSize (userList s) := by
  have hnames : ∀ name ∈ userNames s, name.length < 32 := by
    intro name hn
    obtain ⟨c, -, rfl⟩ := List.mem_map.mp hn
    exact c.name.fits
  have hle := entries_le hnames
  have hlen : (userNames s).length = s.clients.length := List.length_map ..
  rw [userList, fits_list_iff, show usersHeader.length = 26 from by decide,
    CommandChatServer.bufSize]
  omega

/-! ## Chat messages -/

/-- What stands before the chunk in a message of lab 18. -/
def roomTag (sender : RoomChatServer.Client) : List Byte :=
  ascii "[" ++ (if sender.name.text ≠ [] then sender.name.text else ascii "anon") ++ ascii ":" ++
    sender.room.text ++ ascii "] "

def userTag (sender : Option CommandChatServer.Client) : List Byte :=
  ascii "[" ++ CommandChatServer.senderName sender ++ ascii "] "

/-- Everybody who is sent the chunk is sent all of it behind the tag. -/
def RoomIntact (s : RoomChatServer.Server) (fd : RoomChatServer.Fd) (buf : List Byte) : Prop :=
  ∀ sender ∈ RoomChatServer.findClientByFd s fd,
    ∀ m ∈ (RoomChatServer.serve s (.receive fd buf)).2, m.1 ≠ fd → m.2 = roomTag sender ++ buf

def UsersIntact (s : CommandChatServer.Server) (fd : CommandChatServer.Fd) (buf : List Byte) :
    Prop :=
  ∀ m ∈ (CommandChatServer.serve s (.receive fd buf)).2,
    m.1 ≠ fd → m.2 = userTag (CommandChatServer.findSelf s fd) ++ buf

/-- If anybody is to have the chunk, tag and chunk together fit the buffer. -/
def RoomFits (s : RoomChatServer.Server) (fd : RoomChatServer.Fd) (buf : List Byte) : Prop :=
  ∀ sender ∈ RoomChatServer.findClientByFd s fd, sender.room.text ≠ [] →
    ¬ RoomChatNotices.NobodyIn s fd sender.room.text →
      (roomTag sender).length + buf.length < RoomChatServer.bufSize

def UsersFit (s : CommandChatServer.Server) (fd : CommandChatServer.Fd) (buf : List Byte) : Prop :=
  (∃ c ∈ s.clients, c.fd ≠ fd) →
    (userTag (CommandChatServer.findSelf s fd)).length + buf.length < CommandChatServer.bufSize

instance (s : RoomChatServer.Server) (fd : RoomChatServer.Fd) (buf : List Byte) :
    Decidable (RoomFits s fd buf) :=
  inferInstanceAs (Decidable (∀ sender ∈ RoomChatServer.findClientByFd s fd, _))

instance (s : CommandChatServer.Server) (fd : CommandChatServer.Fd) (buf : List Byte) :
    Decidable (UsersFit s fd buf) := inferInstanceAs (Decidable ((∃ c ∈ s.clients, _) → _))

theorem snprintf_eq_iff {size : ℕ} (hs : 0 < size) (text : List Byte) :
    snprintf size text = text ↔ text.length < size := by
  rw [snprintf, List.take_eq_self_iff]
  omega

theorem chatMessage_eq_iff {sender : RoomChatServer.Client} {buf : List Byte}
    (h : (0 : Byte) ∉ buf) :
    RoomChatServer.chatMessage sender buf = roomTag sender ++ buf ↔
      (roomTag sender).length + buf.length < RoomChatServer.bufSize := by
  rw [RoomChatServer.chatMessage, cstr_of_noNul h, ← List.length_append,
    ← snprintf_eq_iff (by decide), roomTag]

theorem room_intact_iff (s : RoomChatServer.Server) {fd : RoomChatServer.Fd} {buf : List Byte}
    (hb : buf.head? ≠ some RoomChatServer.slash) (h : (0 : Byte) ∉ buf) :
    RoomIntact s fd buf ↔ RoomFits s fd buf := by
  refine forall₂_congr fun sender hfind => ?_
  rw [RoomChatServer.serve, RoomChatIsolation.receive_chat hfind hb]
  split
  · next hnone =>
    refine iff_of_true (fun m hm hne => ?_) fun hroom => absurd hnone hroom
    exact absurd (congrArg Prod.fst (List.mem_singleton.mp hm)) hne
  · next hroom =>
    rw [← chatMessage_eq_iff h]
    constructor
    · intro hall _ hsome
      simp only [RoomChatNotices.NobodyIn, not_forall, not_not] at hsome
      obtain ⟨c, hc, hne, hin⟩ := hsome
      exact hall (c.fd, _) (RoomChatIsolation.mem_broadcastRoom.mpr ⟨c, hc, ⟨hin, hne⟩, rfl⟩) hne
    · intro hfits m hm hne
      obtain ⟨c, hc, ⟨hin, hne⟩, rfl⟩ := RoomChatIsolation.mem_broadcastRoom.mp hm
      exact hfits hroom fun hnobody => hnobody c hc hne hin

theorem userMessage_eq_iff {sender : Option CommandChatServer.Client} {buf : List Byte}
    (h : (0 : Byte) ∉ buf) :
    CommandChatServer.chatMessage sender buf = userTag sender ++ buf ↔
      (userTag sender).length + buf.length < CommandChatServer.bufSize := by
  rw [CommandChatServer.chatMessage, cstr_of_noNul h, ← List.length_append,
    ← snprintf_eq_iff (by decide), userTag]

theorem users_intact_iff (s : CommandChatServer.Server) {fd : CommandChatServer.Fd}
    {buf : List Byte} (hb : buf.head? ≠ some CommandChatServer.slash) (h : (0 : Byte) ∉ buf) :
    UsersIntact s fd buf ↔ UsersFit s fd buf := by
  have hsends : (CommandChatServer.serve s (.receive fd buf)).2 = CommandChatServer.broadcast s
      (CommandChatServer.chatMessage (CommandChatServer.findSelf s fd) buf) fd := by
    rw [CommandChatServer.serve, CommandChatServer.receive, if_neg hb]
  rw [UsersIntact, UsersFit, hsends, ← userMessage_eq_iff h]
  constructor
  · rintro hall ⟨c, hc, hne⟩
    exact hall (c.fd, _) (List.mem_map.mpr ⟨c, by simpa using ⟨hc, hne⟩, rfl⟩) hne
  · intro hfits m hm hne
    obtain ⟨c, hc, rfl⟩ := List.mem_map.mp hm
    exact hfits ⟨c, (List.mem_filter.mp hc).1, hne⟩

/-- A chunk without NUL that is no command reaches the others whole exactly when the tag in front
of it leaves room for it in the buffer. -/
theorem chat_intact_iff (fd : ℕ) (buf : List Byte) (hb : buf.head? ≠ some RoomChatServer.slash)
    (h : (0 : Byte) ∉ buf) :
    (∀ s : RoomChatServer.Server, RoomIntact s fd buf ↔ RoomFits s fd buf) ∧
      ∀ s : CommandChatServer.Server, UsersIntact s fd buf ↔ UsersFit s fd buf :=
  ⟨fun s => room_intact_iff s hb h, fun s => users_intact_iff s hb h⟩

/-- Two members of a room, and two clients of lab 17. -/
theorem chat_intact_hello :
    RoomIntact ((RoomChatServer.machine {0, 1, 2, 3, 4}).run [.accept 5, .accept 6,
      .receive 5 (ascii "/join a\n"), .receive 6 (ascii "/join a\n")]) 5 (ascii "hello\n") ∧
    UsersIntact ((CommandChatServer.machine {0, 1, 2, 3, 4}).run [.accept 5, .accept 6]) 5
      (ascii "hello\n") := by
  obtain ⟨hroom, husers⟩ := chat_intact_iff 5 (ascii "hello\n") (by decide) (by decide)
  exact ⟨(hroom _).mpr (by decide), (husers _).mpr (by decide)⟩

/-- A line of 1023 bytes, as long as the client and the server read: the tag pushes its end out of
the buffer. -/
theorem long_line_cut :
    ¬ ∀ es fd buf, (RoomChatServer.machine {0, 1, 2, 3, 4}).Valid (es ++ [.receive fd buf]) →
      buf.head? ≠ some RoomChatServer.slash → (0 : Byte) ∉ buf →
      RoomIntact ((RoomChatServer.machine {0, 1, 2, 3, 4}).run es) fd buf := by
  intro hall
  have hi := hall [.accept 5, .accept 6, .receive 5 (ascii "/join a\n"),
    .receive 6 (ascii "/join a\n")] 5 (List.replicate 1022 97 ++ [newline]) (by decide +kernel)
    (by decide) (by decide +kernel)
  rw [room_intact_iff _ (by decide) (by decide +kernel)] at hi
  revert hi
  decide +kernel

end ChatBuffers
