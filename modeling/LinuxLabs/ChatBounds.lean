import LinuxLabs.ArrayAccess
import LinuxLabs.CommandChatServer
import LinuxLabs.EpollChatServer
import LinuxLabs.RoomChatServer

/-! # The client tables of the array-based chat servers (labs 14, 17 and 18)
The servers as before, but `accept` succeeds whenever the kernel has a descriptor: no server
compares `client_count` with `MAX_CLIENTS`. Each step is given with its accesses to `clients[]`, in
the order of the source. -/
namespace ChatBounds

open Execution CString KeyedTable ArrayAccess

/-! ## Lab 14 -/

namespace Epoll

open EpollChatServer

def Enabled (reserved : Finset Fd) (s : Server) : Event → Prop
  | .accept fd => fd ∉ s.openFds
  | e => EpollChatServer.Enabled reserved s e

def machine (reserved : Finset Fd) : Machine Server Event :=
  { EpollChatServer.machine reserved with Enabled := Enabled reserved }

instance (reserved : Finset Fd) (s : Server) (e : Event) :
    Decidable ((machine reserved).Enabled s e) := by
  casesm Event <;> simp only [machine, Enabled, EpollChatServer.Enabled] <;> infer_instance

/-- `broadcast` announces a client when it is already in the table. -/
def accesses (s : Server) : Event → List Access
  | .accept fd => append s.clients :: sweep (s.clients ++ [fd])
  | .acceptFailed => []
  | .hangup fd => removal id fd s.clients
  | .receive _ _ => sweep s.clients

def count (s : Server) : ℕ := s.clients.length

/-- A client is accepted only while the table has room. -/
def HasRoom (s : Server) : Event → Prop
  | .accept _ => s.clients.length < maxClients
  | _ => True

instance (s : Server) (e : Event) : Decidable (HasRoom s e) := by
  casesm Event <;> simp only [HasRoom] <;> infer_instance

theorem bounded_iff_room (reserved : Finset Fd) (s : Server) (e : Event)
    (h : count s ≤ maxClients) :
    Bounded (machine reserved) maxClients count accesses s e ↔ HasRoom s e := by
  cases e with
  | accept fd =>
    refine bounded_append_iff s.clients rfl List.length_append List.mem_cons_self ?_ h
    intro happend hafter
    have hsweep : AllInside maxClients (sweep (s.clients ++ [fd])) :=
      sweep_inside (List.length_append.trans_le hafter)
    exact allInside_cons.mpr ⟨happend, hsweep⟩
  | acceptFailed => exact iff_of_true ⟨h, h, allInside_nil⟩ trivial
  | hangup fd =>
    have hafter := Nat.le_trans (length_remove id fd s.clients) h
    exact iff_of_true ⟨h, hafter, removal_inside h⟩ trivial
  | receive fd buf => exact iff_of_true ⟨h, h, sweep_inside h⟩ trivial

end Epoll

/-! ## Lab 17 -/

namespace Command

open CommandChatServer

def Enabled (reserved : Finset Fd) (s : Server) : Event → Prop
  | .accept fd => fd ∉ s.openFds
  | e => CommandChatServer.Enabled reserved s e

def machine (reserved : Finset Fd) : Machine Server Event :=
  { CommandChatServer.machine reserved with Enabled := Enabled reserved }

instance (reserved : Finset Fd) (s : Server) (e : Event) :
    Decidable ((machine reserved).Enabled s e) := by
  casesm Event <;> simp only [machine, Enabled, CommandChatServer.Enabled] <;> infer_instance

/-- Where the scan that does not stop leaves its pointer. -/
def lastSlot (fd : Fd) (clients : List Client) : Option ℕ :=
  (slot Client.fd fd clients.reverse).map fun i => clients.length - 1 - i

/-- `send_private` looks the target up by its name. -/
def messageAccesses (s : Server) (self : ℕ) (args : List Byte) : List Access :=
  match strtok args space with
  | none => []
  | some (target, rest) =>
    match strtok rest newline with
    | none => []
    | some _ =>
      search (fun c => c.name.text) target s.clients ++
        match slot (fun c => c.name.text) target s.clients with
        | none => []
        | some dest => [load s.clients self, load s.clients dest]

/-- `self` is the index behind the pointer of that name. -/
def selfAccesses (s : Server) (fd : Fd) (self : ℕ) (cmd : List Byte) : List Access :=
  if strncmp cmd (ascii "/nick ") 6 then [store s.clients self]
  else if strncmp cmd (ascii "/list") 5 then sweep s.clients
  else if strncmp cmd (ascii "/msg ") 5 then messageAccesses s self (cmd.drop 5)
  else if strncmp cmd (ascii "/quit") 5 then removal Client.fd fd s.clients
  else []

def commandAccesses (s : Server) (fd : Fd) (cmd : List Byte) : List Access :=
  sweep s.clients ++
    match lastSlot fd s.clients with
    | none => []
    | some self => selfAccesses s fd self cmd

def chatAccesses (s : Server) (fd : Fd) : List Access :=
  sweep s.clients ++
    match lastSlot fd s.clients with
    | none => sweep s.clients
    | some sender => load s.clients sender :: sweep s.clients

def receiveAccesses (s : Server) (fd : Fd) (buf : List Byte) : List Access :=
  if buf.head? = some slash then commandAccesses s fd (cstr buf) else chatAccesses s fd

/-- `accept` stores the descriptor and the empty name. -/
def accesses (s : Server) : Event → List Access
  | .accept fd =>
    append s.clients :: append s.clients :: sweep (s.clients ++ [(⟨fd, .empty⟩ : Client)])
  | .acceptFailed => []
  | .hangup fd => removal Client.fd fd s.clients
  | .receive fd buf => receiveAccesses s fd buf

def count (s : Server) : ℕ := s.clients.length

def HasRoom (s : Server) : Event → Prop
  | .accept _ => s.clients.length < maxClients
  | _ => True

instance (s : Server) (e : Event) : Decidable (HasRoom s e) := by
  casesm Event <;> simp only [HasRoom] <;> infer_instance

variable {s : Server} {fd : Fd} {i : ℕ}

theorem lastSlot_lt (h : lastSlot fd s.clients = some i) : i < s.clients.length := by
  obtain ⟨j, hj, rfl⟩ := Option.map_eq_some_iff.mp h
  obtain ⟨hlt, -⟩ := slot_eq_some hj
  rw [List.length_reverse] at hlt
  omega

theorem message_inside (h : count s ≤ maxClients) (hi : i < s.clients.length)
    (args : List Byte) : AllInside maxClients (messageAccesses s i args) := by
  unfold messageAccesses
  split
  · exact allInside_nil
  · split
    · exact allInside_nil
    · rw [allInside_append]
      refine ⟨search_inside h, ?_⟩
      split
      · exact allInside_nil
      · next dest hdest =>
        obtain ⟨hd, -⟩ := slot_eq_some hdest
        simp [load_inside h hi, load_inside h hd]

theorem receive_inside (h : count s ≤ maxClients) (fd : Fd) (buf : List Byte) :
    AllInside maxClients (receiveAccesses s fd buf) := by
  unfold receiveAccesses
  split
  · rw [commandAccesses, allInside_append]
    refine ⟨sweep_inside h, ?_⟩
    split
    · exact allInside_nil
    · next self hself =>
      have hlt := lastSlot_lt hself
      unfold selfAccesses
      split_ifs
      · simp [store_inside h hlt]
      · exact sweep_inside h
      · exact message_inside h hlt _
      · exact removal_inside h
      · exact allInside_nil
  · rw [chatAccesses, allInside_append]
    refine ⟨sweep_inside h, ?_⟩
    split
    · exact sweep_inside h
    · next sender hsender =>
      exact allInside_cons.mpr ⟨load_inside h (lastSlot_lt hsender), sweep_inside h⟩

theorem remove_count (s : Server) (fd : Fd) : count (removeClient s fd) ≤ count s := by
  unfold removeClient
  split
  · exact le_rfl
  · apply length_removeAt

theorem receive_count (s : Server) (fd : Fd) (buf : List Byte) :
    count (receive s fd buf).1 ≤ count s := by
  unfold receive handleCommand
  split
  · split
    · exact le_rfl
    · split_ifs
      · simp [nick, count, updateLast, length_update]
      · exact le_rfl
      · exact le_rfl
      · apply remove_count
      · exact le_rfl
  · exact le_rfl

theorem bounded_iff_room (reserved : Finset Fd) (s : Server) (e : Event)
    (h : count s ≤ maxClients) :
    Bounded (machine reserved) maxClients count accesses s e ↔ HasRoom s e := by
  cases e with
  | accept fd =>
    refine bounded_append_iff s.clients rfl List.length_append List.mem_cons_self ?_ h
    intro happend hafter
    have hsweep : AllInside maxClients (sweep (s.clients ++ [(⟨fd, .empty⟩ : Client)])) :=
      sweep_inside (List.length_append.trans_le hafter)
    simp [accesses, happend, hsweep]
  | acceptFailed => exact iff_of_true ⟨h, h, allInside_nil⟩ trivial
  | hangup fd =>
    exact iff_of_true ⟨h, Nat.le_trans (remove_count s fd) h, removal_inside h⟩ trivial
  | receive fd buf =>
    exact iff_of_true ⟨h, Nat.le_trans (receive_count s fd buf) h, receive_inside h fd buf⟩ trivial

end Command

/-! ## Lab 18 -/

namespace Room

open RoomChatServer

def Enabled (reserved : Finset Fd) (s : Server) : Event → Prop
  | .accept fd => fd ∉ s.openFds
  | e => RoomChatServer.Enabled reserved s e

def machine (reserved : Finset Fd) : Machine Server Event :=
  { RoomChatServer.machine reserved with Enabled := Enabled reserved }

instance (reserved : Finset Fd) (s : Server) (e : Event) :
    Decidable ((machine reserved).Enabled s e) := by
  casesm Event <;> simp only [machine, Enabled, RoomChatServer.Enabled] <;> infer_instance

/-- `self->room[0]`, with `self` for the index behind the pointer. -/
def inRoom (s : Server) (self : ℕ) : Bool := s.clients[self]?.any fun c => c.room.text ≠ []

def selfAccesses (s : Server) (fd : Fd) (self : ℕ) (cmd : List Byte) : List Access :=
  if strncmp cmd (ascii "/nick ") 6 then [store s.clients self, load s.clients self]
  else if strncmp cmd (ascii "/join ") 6 then
    store s.clients self :: load s.clients self :: sweep s.clients
  else if strncmp cmd (ascii "/leave") 6 then
    load s.clients self ::
      if inRoom s self then sweep s.clients ++ [store s.clients self] else []
  else if strncmp cmd (ascii "/list") 5 then load s.clients self :: sweep s.clients
  else if strncmp cmd (ascii "/quit") 5 then removal Client.fd fd s.clients
  else []

/-- `find_client_by_fd` comes first for a command and for a message. -/
def receiveAccesses (s : Server) (fd : Fd) (buf : List Byte) : List Access :=
  search Client.fd fd s.clients ++
    match slot Client.fd fd s.clients with
    | none => []
    | some self =>
      if buf.head? = some slash then selfAccesses s fd self (cstr buf)
      else load s.clients self :: if inRoom s self then sweep s.clients else []

/-- `accept` stores the descriptor and the two empty strings. -/
def accesses (s : Server) : Event → List Access
  | .accept _ => [append s.clients, append s.clients, append s.clients]
  | .acceptFailed => []
  | .hangup fd => removal Client.fd fd s.clients
  | .receive fd buf => receiveAccesses s fd buf

def count (s : Server) : ℕ := s.clients.length

def HasRoom (s : Server) : Event → Prop
  | .accept _ => s.clients.length < maxClients
  | _ => True

instance (s : Server) (e : Event) : Decidable (HasRoom s e) := by
  casesm Event <;> simp only [HasRoom] <;> infer_instance

variable {s : Server} {fd : Fd}

theorem receive_inside (h : count s ≤ maxClients) (fd : Fd) (buf : List Byte) :
    AllInside maxClients (receiveAccesses s fd buf) := by
  rw [receiveAccesses, allInside_append]
  refine ⟨search_inside h, ?_⟩
  split
  · exact allInside_nil
  · next self hself =>
    obtain ⟨hlt, -⟩ := slot_eq_some hself
    have hload := load_inside h hlt
    have hstore := store_inside h hlt
    have hsweep := sweep_inside h
    unfold selfAccesses
    split_ifs
    · simp [hload, hstore]
    · simp [hload, hstore, hsweep]
    · simp [hload, hstore, hsweep]
    · simp [hload]
    · simp [hload, hsweep]
    · exact removal_inside h
    · exact allInside_nil
    · simp [hload, hsweep]
    · simp [hload]

theorem remove_count (s : Server) (fd : Fd) : count (removeClient s fd) ≤ count s := by
  unfold removeClient
  split
  · exact le_rfl
  · apply length_removeAt

theorem store_count (s : Server) (fd : Fd) (f : Client → Client) :
    count (storeClient s fd f) = count s := length_update Client.fd fd f s.clients

theorem receive_count (s : Server) (fd : Fd) (buf : List Byte) :
    count (receive s fd buf).1 ≤ count s := by
  unfold receive handleCommand
  split
  · split
    · exact le_rfl
    · unfold nick join leave quit
      split_ifs
      · exact (store_count ..).le
      · exact (store_count ..).le
      · exact (store_count ..).le
      · exact le_rfl
      · exact le_rfl
      · apply remove_count
      · exact le_rfl
  · split
    · exact le_rfl
    · split <;> exact le_rfl

theorem bounded_iff_room (reserved : Finset Fd) (s : Server) (e : Event)
    (h : count s ≤ maxClients) :
    Bounded (machine reserved) maxClients count accesses s e ↔ HasRoom s e := by
  cases e with
  | accept fd =>
    refine bounded_append_iff s.clients rfl List.length_append List.mem_cons_self ?_ h
    intro happend _
    simp [accesses, happend]
  | acceptFailed => exact iff_of_true ⟨h, h, allInside_nil⟩ trivial
  | hangup fd =>
    exact iff_of_true ⟨h, Nat.le_trans (remove_count s fd) h, removal_inside h⟩ trivial
  | receive fd buf =>
    exact iff_of_true ⟨h, Nat.le_trans (receive_count s fd buf) h, receive_inside h fd buf⟩ trivial

end Room

/-- In the three servers the counter and the accesses stay inside the table exactly as long as no
client is accepted when the table is full. -/
theorem tables_bounded_iff (reserved : Finset ℕ) (es : List EpollChatServer.Event)
    (cs : List CommandChatServer.Event) (rs : List RoomChatServer.Event)
    (he : (Epoll.machine reserved).Valid es) (hc : (Command.machine reserved).Valid cs)
    (hr : (Room.machine reserved).Valid rs) :
    ((Epoll.machine reserved).Along (Bounded (Epoll.machine reserved) EpollChatServer.maxClients
        Epoll.count Epoll.accesses) es ↔ (Epoll.machine reserved).Along Epoll.HasRoom es) ∧
    ((Command.machine reserved).Along (Bounded (Command.machine reserved)
        CommandChatServer.maxClients Command.count Command.accesses) cs ↔
      (Command.machine reserved).Along Command.HasRoom cs) ∧
    ((Room.machine reserved).Along (Bounded (Room.machine reserved) RoomChatServer.maxClients
        Room.count Room.accesses) rs ↔ (Room.machine reserved).Along Room.HasRoom rs) :=
  ⟨along_bounded_iff (Nat.zero_le _) (Epoll.bounded_iff_room reserved) he,
    along_bounded_iff (Nat.zero_le _) (Command.bounded_iff_room reserved) hc,
    along_bounded_iff (Nat.zero_le _) (Room.bounded_iff_room reserved) hr⟩

/-- Clients come, talk and go in all three. -/
theorem tables_bounded_small :
    (Epoll.machine {3, 4}).Along (Bounded (Epoll.machine {3, 4}) EpollChatServer.maxClients
        Epoll.count Epoll.accesses) [.accept 5, .accept 6, .receive 5 (ascii "hi\n"), .hangup 5] ∧
    (Command.machine {3, 4}).Along (Bounded (Command.machine {3, 4})
        CommandChatServer.maxClients Command.count Command.accesses)
      [.accept 5, .accept 6, .receive 5 (ascii "/quit\n"), .receive 6 (ascii "hi\n")] ∧
    (Room.machine {3, 4}).Along (Bounded (Room.machine {3, 4}) RoomChatServer.maxClients
        Room.count Room.accesses)
      [.accept 5, .accept 6, .receive 5 (ascii "/join den\n"), .receive 5 (ascii "/quit\n")] := by
  obtain ⟨he, hc, hr⟩ := tables_bounded_iff {3, 4}
    [.accept 5, .accept 6, .receive 5 (ascii "hi\n"), .hangup 5]
    [.accept 5, .accept 6, .receive 5 (ascii "/quit\n"), .receive 6 (ascii "hi\n")]
    [.accept 5, .accept 6, .receive 5 (ascii "/join den\n"), .receive 5 (ascii "/quit\n")]
    (by decide +kernel) (by decide +kernel) (by decide +kernel)
  exact ⟨he.mpr (by decide +kernel), hc.mpr (by decide +kernel), hr.mpr (by decide +kernel)⟩

/-- The client after the 1024th is stored behind the end of the table. -/
theorem table_overrun :
    ((Epoll.machine {3, 4}).Valid (arriving .accept 5 1025) ∧
      ¬ (Epoll.machine {3, 4}).Along (Bounded (Epoll.machine {3, 4}) EpollChatServer.maxClients
        Epoll.count Epoll.accesses) (arriving .accept 5 1025)) ∧
    ((Command.machine {3, 4}).Valid (arriving .accept 5 1025) ∧
      ¬ (Command.machine {3, 4}).Along (Bounded (Command.machine {3, 4})
        CommandChatServer.maxClients Command.count Command.accesses) (arriving .accept 5 1025)) ∧
    ((Room.machine {3, 4}).Valid (arriving .accept 5 1025) ∧
      ¬ (Room.machine {3, 4}).Along (Bounded (Room.machine {3, 4}) RoomChatServer.maxClients
        Room.count Room.accesses) (arriving .accept 5 1025)) := by
  have he := arrivals_overrun (Epoll.machine {3, 4}) Epoll.count Epoll.accesses .accept
    (fun s => s.openFds) 5 (by decide) (fun _ _ h => h) (fun _ _ => rfl)
    (fun _ _ => List.length_append) rfl (show EpollChatServer.maxClients < 1025 by decide)
  have hc := arrivals_overrun (Command.machine {3, 4}) Command.count Command.accesses .accept
    (fun s => s.openFds) 5 (by decide) (fun _ _ h => h) (fun _ _ => rfl)
    (fun _ _ => List.length_append) rfl (show CommandChatServer.maxClients < 1025 by decide)
  have hr := arrivals_overrun (Room.machine {3, 4}) Room.count Room.accesses .accept
    (fun s => s.openFds) 5 (by decide) (fun _ _ h => h) (fun _ _ => rfl)
    (fun _ _ => List.length_append) rfl (show RoomChatServer.maxClients < 1025 by decide)
  exact ⟨he, hc, hr⟩

end ChatBounds
