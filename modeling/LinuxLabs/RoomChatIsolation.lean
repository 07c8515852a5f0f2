import LinuxLabs.RoomChatTable

/-! # Chat text stays in the room
The room of a client is read twice: off its own commands alone, and off the array that
every other client keeps permuting. Both agree in every run, so a chat chunk goes to the
members of the sender's room and to nobody else. -/
namespace RoomChatIsolation

open Execution CString KeyedTable RoomChatServer RoomChatTable

/-- The room of `fd` by its own history; a new connection starts in none. -/
def ownRoom (fd : Fd) (room : List Byte) : Event → List Byte
  | .accept a => if a = fd then [] else room
  | .acceptFailed => room
  | .hangup _ => room
  | .receive a buf =>
    if a = fd then
      match commandOf buf with
      | .join arg => arg.take (roomLen - 1)
      | .leave => []
      | _ => room
    else room

def historyRoom (es : List Event) (fd : Fd) : List Byte := es.foldl (ownRoom fd) []

variable {reserved : Finset Fd} {s : Server}

theorem ownRoom_other {fd : Fd} {e : Event} (h : actor e ≠ some fd) (room : List Byte) :
    ownRoom fd room e = room := by
  cases e with
  | accept a => exact if_neg fun ha => h (congrArg some ha)
  | receive a buf => exact if_neg fun ha => h (congrArg some ha)
  | acceptFailed | hangup => rfl

/-- The directory's room follows the actor's own commands. -/
theorem apply_room {d : Directory} {fd : Fd} {room : List Byte}
    (hd : ∀ p, d fd = some p → p.room.text = room) (e : Event) :
    ∀ p, d.apply e fd = some p → p.room.text = ownRoom fd room e := by
  intro p hp
  by_cases ha : actor e = some fd
  · cases e with
    | acceptFailed => cases ha
    | accept a =>
      obtain rfl : a = fd := Option.some.inj ha
      obtain rfl : (⟨.empty, .empty⟩ : Profile) = p := by
        simpa [Directory.apply] using hp
      simp [ownRoom]
    | hangup a =>
      obtain rfl : a = fd := Option.some.inj ha
      simp [Directory.apply] at hp
    | receive a buf =>
      obtain rfl : a = fd := Option.some.inj ha
      simp only [Directory.apply] at hp
      simp only [ownRoom, if_true]
      cases hc : commandOf buf with
      | nick name =>
        obtain ⟨q, hq, rfl⟩ : ∃ q, d a = some q ∧ { q with name := .print name } = p := by
          simpa [hc, Directory.modify] using hp
        exact hd q hq
      | join arg =>
        obtain ⟨q, hq, rfl⟩ : ∃ q, d a = some q ∧ { q with room := .print arg } = p := by
          simpa [hc, Directory.modify] using hp
        exact CharArray.print_text (join_noNul hc)
      | leave =>
        obtain ⟨q, hq, rfl⟩ : ∃ q, d a = some q ∧ { q with room := .empty } = p := by
          simpa [hc, Directory.modify] using hp
        rfl
      | quit => simp [hc] at hp
      | list | unknown | chat => exact hd p (by simpa [hc] using hp)
  · rw [apply_frame d e ha] at hp
    rw [ownRoom_other ha]
    exact hd p hp

theorem run_room {es : List Event} (h : (machine reserved).Valid es) (fd : Fd) {p : Profile}
    (hp : directory ((machine reserved).run es) fd = some p) :
    p.room.text = historyRoom es fd := by
  refine (Machine.simulation (M := machine reserved)
    (R := fun s room => Consistent reserved s ∧ ∀ p, directory s fd = some p → p.room.text = room)
    ⟨initial_consistent reserved, by simp [directory, findClientByFd, lookup, machine]⟩ ?_ h).2 p hp
  rintro s room e ⟨hs, hroom⟩ he
  refine ⟨serve_consistent hs he, ?_⟩
  rw [show (machine reserved).next s e = (serve s e).1 from rfl, serve_directory hs he]
  exact apply_room hroom e

theorem member_room {es : List Event} (h : (machine reserved).Valid es) {c : Client}
    (hc : c ∈ ((machine reserved).run es).clients) : c.room.text = historyRoom es c.fd :=
  run_room h c.fd ((directory_eq_some (run_consistent h).distinct).mpr ⟨c, hc, rfl, rfl⟩)

/-! ## Who a broadcast reaches -/

theorem broadcastRoom_nodup (h : Distinct Client.fd s.clients) (room msg : List Byte) (fd : Fd) :
    ((broadcastRoom s room msg fd).map Prod.fst).Nodup := by
  rw [broadcastRoom, List.map_map]
  exact (List.filter_sublist.map Client.fd).nodup h

theorem mem_broadcastRoom {room msg : List Byte} {fd : Fd} {m : Send} :
    m ∈ broadcastRoom s room msg fd ↔
      ∃ c ∈ s.clients, (c.room.text = room ∧ c.fd ≠ fd) ∧ (c.fd, msg) = m := by
  simp [broadcastRoom, and_assoc]

theorem receive_chat {fd : Fd} {self : Client} (h : findClientByFd s fd = some self)
    {buf : List Byte} (hb : buf.head? ≠ some slash) :
    (receive s fd buf).2 = if self.room.text = [] then
        [(fd, ascii "[Server] Join a room first using /join <room>\n")]
      else broadcastRoom s self.room.text (chatMessage self buf) fd := by
  rw [receive, if_neg hb, h]
  dsimp only
  split <;> rfl

/-- A chat chunk at the end of any run: with a room, one message to each connected member
of it other than the sender and to nobody else; without one, nothing to any other client. -/
theorem room_isolation (reserved : Finset Fd) (es : List Event) (fd : Fd) (buf : List Byte)
    (h : (machine reserved).Valid (es ++ [.receive fd buf])) (hb : buf.head? ≠ some slash) :
    let s := (machine reserved).run es
    let sends := (serve s (.receive fd buf)).2
    (historyRoom es fd ≠ [] →
      (sends.map Prod.fst).Nodup ∧
      (∀ k, k ∈ sends.map Prod.fst ↔
        k ∈ connected es ∧ k ≠ fd ∧ historyRoom es k = historyRoom es fd) ∧
      ∃ self ∈ s.clients, self.fd = fd ∧ ∀ m ∈ sends, m.2 = chatMessage self buf) ∧
    (historyRoom es fd = [] → ∀ m ∈ sends, m.1 = fd) := by
  intro s sends
  obtain ⟨hv, he⟩ := (Machine.valid_concat _ _).mp h
  have hs : Consistent reserved s := run_consistent hv
  obtain ⟨self, hfind, rfl⟩ := hs.find he.1
  have hself : self ∈ s.clients := mem_of_lookup hfind
  have hroom : self.room.text = historyRoom es self.fd := member_room hv hself
  have hsends : sends = _ := receive_chat hfind hb
  rw [hroom] at hsends
  constructor
  · intro hne
    rw [if_neg hne] at hsends
    rw [hsends]
    refine ⟨broadcastRoom_nodup hs.distinct _ _ _, fun k => ?_, self, hself, rfl, ?_⟩
    · simp only [List.mem_map, mem_broadcastRoom]
      constructor
      · rintro ⟨m, ⟨c, hc, ⟨hcr, hcf⟩, rfl⟩, rfl⟩
        refine ⟨(run_connected hv c.fd).mp (List.mem_map_of_mem hc), hcf, ?_⟩
        exact (member_room hv hc).symm.trans hcr
      · rintro ⟨hk, hkf, hkr⟩
        obtain ⟨c, hc, rfl⟩ := List.mem_map.mp ((run_connected hv k).mpr hk)
        exact ⟨_, ⟨c, hc, ⟨(member_room hv hc).trans hkr, hkf⟩, rfl⟩, rfl⟩
    · intro m hm
      obtain ⟨c, _, _, rfl⟩ := mem_broadcastRoom.mp hm
      rfl
  · intro hnil m hm
    rw [hsends, if_pos hnil] at hm
    rw [List.mem_singleton.mp hm]

/-- Two members of one room and a third client elsewhere. -/
theorem room_isolation_two_rooms :
    let es := [.accept 5, .accept 6, .accept 7, .receive 7 (ascii "/join b\n"),
      .receive 5 (ascii "/join a\n"), .receive 6 (ascii "/join a\n")]
    let s := (machine {0, 1, 2, 3, 4}).run es
    let sends := (serve s (.receive 5 (ascii "hi\n"))).2
    (historyRoom es 5 ≠ [] →
      (sends.map Prod.fst).Nodup ∧
      (∀ k, k ∈ sends.map Prod.fst ↔
        k ∈ connected es ∧ k ≠ 5 ∧ historyRoom es k = historyRoom es 5) ∧
      ∃ self ∈ s.clients, self.fd = 5 ∧ ∀ m ∈ sends, m.2 = chatMessage self (ascii "hi\n")) ∧
    (historyRoom es 5 = [] → ∀ m ∈ sends, m.1 = 5) := by
  exact room_isolation {0, 1, 2, 3, 4} _ 5 (ascii "hi\n") (by decide) (by decide)

end RoomChatIsolation
