import LinuxLabs.RoomChatSegmentation

/-! # The notices of the room chat server
`/join` tells the rooms that equal its whole argument, which is the stored room only when the
argument fits it; of the ways out of a room only `/leave` tells anybody. -/
namespace RoomChatNotices

open Execution CString KeyedTable RoomChatServer RoomChatTable RoomChatSegmentation

def joinNotice (self : Client) : List Byte :=
  snprintf bufSize (ascii "[Server] " ++ self.name.text ++ ascii " joined the room.\n")

def exitNotice (self : Client) : List Byte :=
  snprintf bufSize (ascii "[Server] " ++ self.name.text ++ ascii " left room '" ++
    self.room.text ++ ascii "'\n")

/-- After a `/join` on `fd`: the notice goes once to each other client of the room now stored,
if that is one, and to nobody else. -/
def JoinTold (fd : Fd) (r : Server × List Send) : Prop :=
  ∀ self ∈ r.1.clients, self.fd = fd → ∀ c ∈ r.1.clients, c.fd ≠ fd →
    sentTo c.fd r.2 =
      if self.room.text ≠ [] ∧ c.room.text = self.room.text then [joinNotice self] else []

/-- No other client has this room. -/
def NobodyIn (s : Server) (fd : Fd) (room : List Byte) : Prop :=
  ∀ c ∈ s.clients, c.fd ≠ fd → c.room.text ≠ room

/-- The step takes `c` out of its room. -/
def Exits (c : Client) (s' : Server) : Prop :=
  c.room.text ≠ [] ∧ ∀ c' ∈ s'.clients, c'.fd = c.fd → c'.room.text ≠ c.room.text

/-- Whoever is left in a room that a client goes out of is sent one notice of it. -/
def ExitsTold (s : Server) (e : Event) : Prop :=
  ∀ c ∈ s.clients, Exits c (serve s e).1 → ∀ d ∈ (serve s e).1.clients, d.fd ≠ c.fd →
    d.room.text = c.room.text → sentTo d.fd (serve s e).2 = [exitNotice c]

/-- Nobody is left in the room of the client on `fd`, when its room is to be `room` instead. -/
def LeavesNobody (s : Server) (fd : Fd) (room : List Byte) : Prop :=
  ∀ c ∈ s.clients, c.fd = fd → c.room.text ≠ [] → c.room.text ≠ room →
    NobodyIn s fd c.room.text

/-- A client that goes out of a room without `/leave` has the room to itself. -/
def GoesAlone (s : Server) : Event → Prop
  | .hangup fd => LeavesNobody s fd []
  | .receive fd buf => match commandOf buf with
    | .quit => LeavesNobody s fd []
    | .join room => LeavesNobody s fd (room.take (roomLen - 1))
    | _ => True
  | _ => True

instance (s : Server) (fd : Fd) (room : List Byte) : Decidable (NobodyIn s fd room) :=
  inferInstanceAs (Decidable (∀ c ∈ s.clients, _))

instance (s : Server) (fd : Fd) (room : List Byte) : Decidable (LeavesNobody s fd room) :=
  inferInstanceAs (Decidable (∀ c ∈ s.clients, _))

instance (s : Server) (e : Event) : Decidable (GoesAlone s e) := by
  casesm Event <;> simp only [GoesAlone]
  case receive fd buf =>
    generalize commandOf buf = cmd
    casesm Command <;> infer_instance
  all_goals infer_instance

instance (fd : Fd) (r : Server × List Send) : Decidable (JoinTold fd r) :=
  inferInstanceAs (Decidable (∀ self ∈ r.1.clients, _))

instance (c : Client) (s' : Server) : Decidable (Exits c s') :=
  inferInstanceAs (Decidable (_ ∧ _))

instance (s : Server) (e : Event) : Decidable (ExitsTold s e) :=
  inferInstanceAs (Decidable (∀ c ∈ s.clients, _))

variable {reserved : Finset Fd} {s : Server} {e : Event} {fd : Fd}

theorem client_ext {c d : Client} (hfd : c.fd = d.fd) (h : profile c = profile d) : c = d := by
  cases c
  cases d
  cases h
  cases hfd
  rfl

/-- An event leaves the records of the other clients as they are. -/
theorem others_same (h : Consistent reserved s) (he : Enabled reserved s e)
    (ha : actor e = some fd) {d : Client} (hd : d.fd ≠ fd) :
    d ∈ (serve s e).1.clients ↔ d ∈ s.clients := by
  have hframe : directory (serve s e).1 d.fd = directory s d.fd := by
    rw [serve_directory h he]
    exact apply_frame _ e fun hf => hd (Option.some.inj (hf.symm.trans ha))
  have hiff (s : Server) (hs : Consistent reserved s) :
      d ∈ s.clients ↔ directory s d.fd = some (profile d) := by
    rw [directory_eq_some hs.distinct]
    constructor
    · exact fun hm => ⟨d, hm, rfl, rfl⟩
    · rintro ⟨c, hc, hfd, hp⟩
      rwa [client_ext hfd hp] at hc
  rw [hiff _ (serve_consistent h he), hiff s h, hframe]

/-! ## Joining -/

/-- What the others are sent for a `/join`: the notice, where they have the argument as room. -/
theorem join_sends (h : Consistent reserved s) (self : Client) (room : List Byte) {c : Client}
    (hc : c ∈ s.clients) (hne : c.fd ≠ self.fd) :
    sentTo c.fd (join s self.fd self room).2 =
      if c.room.text = room then [joinNotice self] else [] := by
  have hs : Consistent reserved (storeClient s self.fd fun c => { c with room := .print room }) :=
    h.store fun _ => rfl
  have hc' : c ∈ (storeClient s self.fd fun c => { c with room := .print room }).clients := by
    rw [storeClient, update_eq_map h.distinct]
    exact List.mem_map.mpr ⟨c, hc, if_neg hne⟩
  rw [join, ← List.singleton_append, sentTo_append, sentTo_broadcast hs.distinct hc' hne,
    sentTo_self hne (by simp), List.nil_append]
  rfl

/-- The joiner's record afterwards. -/
theorem joined_record (h : Consistent reserved s) {self : Client}
    (hself : self ∈ s.clients) {room : List Byte} {c : Client}
    (hc : c ∈ (join s self.fd self room).1.clients) (hfd : c.fd = self.fd) :
    c = { self with room := .print room } := by
  rw [join, storeClient, update_eq_map h.distinct] at hc
  obtain ⟨d, hd, rfl⟩ := List.mem_map.mp hc
  split at hfd
  · next hk =>
    rw [if_pos hk, h.distinct.eq_of_key hd hself hk]
  · next hk => exact absurd hfd hk

/-- The argument and the stored room mean the same to a client, but for two kinds of argument. -/
theorem join_agrees (room : List Byte) (c : Client) :
    (c.room.text = room ↔
      room.take (roomLen - 1) ≠ [] ∧ c.room.text = room.take (roomLen - 1)) ↔
    (room = [] → c.room.text ≠ []) ∧
      (roomLen - 1 < room.length → c.room.text ≠ room.take (roomLen - 1)) := by
  by_cases hnil : room = []
  · subst hnil
    simp
  · have htake : room.take (roomLen - 1) ≠ [] := by simp [roomLen, hnil]
    by_cases hfits : room.length ≤ roomLen - 1
    · rw [List.take_of_length_le hfits]
      exact iff_of_true ⟨fun hc => ⟨hnil, hc⟩, And.right⟩
        ⟨fun hr => absurd hr hnil, fun hl => absurd hfits (Nat.not_le.mpr hl)⟩
    · have hlong : c.room.text ≠ room := by
        intro hc
        have := c.room.fits
        rw [hc] at this
        omega
      constructor
      · exact fun hl => ⟨fun hr => absurd hr hnil, fun _ hc => hlong (hl.mpr ⟨htake, hc⟩)⟩
      · rintro ⟨-, hr⟩
        exact ⟨fun hc => absurd hc hlong, fun ⟨_, hc⟩ => absurd hc (hr (Nat.lt_of_not_le hfits))⟩

theorem notice_iff {p q : Prop} [Decidable p] [Decidable q] (notice : List Byte) :
    (if p then [notice] else []) = (if q then [notice] else []) ↔ (p ↔ q) := by
  by_cases hp : p <;> by_cases hq : q <;> simp [hp, hq]

/-- The notice of a `/join` reaches the stored room and nobody else exactly when no other client
is in no room, for an empty argument, or in the room it is cut to, for one that is too long. -/
theorem join_told_iff (reserved : Finset Fd) (es : List Event) (fd : Fd) (buf room : List Byte)
    (h : (machine reserved).Valid (es ++ [.receive fd buf])) (hj : commandOf buf = .join room) :
    let s := (machine reserved).run es
    JoinTold fd (serve s (.receive fd buf)) ↔
      (room = [] → NobodyIn s fd []) ∧
        (roomLen - 1 < room.length → NobodyIn s fd (room.take (roomLen - 1))) := by
  intro s
  obtain ⟨hv, he⟩ := (Machine.valid_concat _ _).mp h
  have hs : Consistent reserved s := run_consistent hv
  obtain ⟨self, hfind, rfl⟩ := hs.find he.1
  have hself : self ∈ s.clients := mem_of_lookup hfind
  have hserve : serve s (.receive self.fd buf) = join s self.fd self room := by
    rw [serve, receive_eq_perform hfind, hj, perform]
  have hstored : (CharArray.print room : CharArray roomLen).text = room.take (roomLen - 1) :=
    CharArray.print_text (join_noNul hj)
  have hothers : ∀ c : Client, c.fd ≠ self.fd →
      (c ∈ (join s self.fd self room).1.clients ↔ c ∈ s.clients) := fun c hc => by
    rw [← hserve]
    exact others_same hs (e := .receive self.fd buf) he rfl hc
  have htold : JoinTold self.fd (join s self.fd self room) ↔ ∀ c ∈ s.clients, c.fd ≠ self.fd →
      (c.room.text = room ↔
        room.take (roomLen - 1) ≠ [] ∧ c.room.text = room.take (roomLen - 1)) := by
    constructor
    · intro ht c hc hne
      have hsent := ht { self with room := .print room } ?_ rfl c ((hothers c hne).mpr hc) hne
      · rw [join_sends hs self room hc hne, hstored] at hsent
        exact (notice_iff _).mp hsent
      · rw [join, storeClient, update_eq_map hs.distinct]
        exact List.mem_map.mpr ⟨self, hself, if_pos rfl⟩
    · intro hall self' hself' hfd c hc hne
      rw [hothers c hne] at hc
      rw [joined_record hs hself hself' hfd, join_sends hs self room hc hne, hstored]
      exact (notice_iff _).mpr (hall c hc hne)
  rw [hserve, htold]
  simp only [join_agrees]
  constructor
  · intro hall
    exact ⟨fun hr c hc hne => (hall c hc hne).1 hr, fun hl c hc hne => (hall c hc hne).2 hl⟩
  · rintro ⟨hempty, hlong⟩ c hc hne
    exact ⟨fun hr => hempty hr c hc hne, fun hl => hlong hl c hc hne⟩

/-- Two members of a room and a client in none. -/
theorem join_told_two_members :
    JoinTold 5 (serve ((machine {0, 1, 2, 3, 4}).run [.accept 5, .accept 6, .accept 7,
      .receive 6 (ascii "/join a\n")]) (.receive 5 (ascii "/join a\n"))) :=
  (join_told_iff {0, 1, 2, 3, 4} _ 5 (ascii "/join a\n") (ascii "a") (by decide) (by decide)).mpr
    (by decide)

/-- An argument of 32 letters: the second to join it is in the first one's room, and is told
alone. -/
theorem long_room_not_told :
    ¬ ∀ es fd buf room, (machine {0, 1, 2, 3, 4}).Valid (es ++ [.receive fd buf]) →
      commandOf buf = .join room →
      JoinTold fd (serve ((machine {0, 1, 2, 3, 4}).run es) (.receive fd buf)) := by
  intro hall
  have ht := hall
    [.accept 5, .accept 6, .receive 5 (ascii "/join aaaaaaaabbbbbbbbccccccccdddddddd\n")] 6
    (ascii "/join aaaaaaaabbbbbbbbccccccccdddddddd\n")
    (ascii "aaaaaaaabbbbbbbbccccccccdddddddd") (by decide) (by decide)
  revert ht
  decide

/-! ## Going out of a room -/

/-- A client that an event is not about stays in its room. -/
theorem Exits.actor (h : Consistent reserved s) (he : Enabled reserved s e) {c : Client}
    (hc : c ∈ s.clients) (hx : Exits c (serve s e).1) : actor e = some c.fd := by
  by_contra ha
  have hframe : directory (serve s e).1 c.fd = directory s c.fd := by
    rw [serve_directory h he]
    exact apply_frame _ e ha
  have hown : directory s c.fd = some (profile c) :=
    (directory_eq_some h.distinct).mpr ⟨c, hc, rfl, rfl⟩
  rw [hown] at hframe
  obtain ⟨d, hd, hfd, hp⟩ := (directory_eq_some (serve_consistent h he).distinct).mp hframe
  exact hx.2 d hd hfd (congrArg (fun p => p.room.text) hp)

/-- The room of `fd` after an event: none when it is not connected. -/
theorem exits_iff (h : Consistent reserved s) (he : Enabled reserved s e) {c : Client}
    {room : List Byte}
    (hroom : ∀ p ∈ directory (serve s e).1 c.fd, p.room.text = room)
    (hgone : directory (serve s e).1 c.fd = none → room = []) :
    Exits c (serve s e).1 ↔ c.room.text ≠ [] ∧ c.room.text ≠ room := by
  have hd := (serve_consistent h he).distinct
  refine and_congr_right fun hne => ⟨fun hx => ?_, fun hx c' hc' hfd hr => hx ?_⟩
  · cases hp : directory (serve s e).1 c.fd with
    | none => rwa [hgone hp]
    | some p =>
      obtain ⟨c', hc', hfd, rfl⟩ := (directory_eq_some hd).mp hp
      rw [← hroom _ hp]
      exact (hx c' hc' hfd).symm
  · rw [← hr]
    exact hroom _ ((directory_eq_some hd).mpr ⟨c', hc', hfd, rfl⟩)

/-- An event that tells those left behind nothing is right when there are none of them. -/
theorem told_iff_silent (h : Consistent reserved s) (he : Enabled reserved s e)
    (ha : actor e = some fd) {room : List Byte}
    (hexits : ∀ c ∈ s.clients, c.fd = fd →
      (Exits c (serve s e).1 ↔ c.room.text ≠ [] ∧ c.room.text ≠ room))
    (hsilent : ∀ c ∈ s.clients, c.fd = fd → c.room.text ≠ room → ∀ d ∈ s.clients, d.fd ≠ fd →
      d.room.text = c.room.text → sentTo d.fd (serve s e).2 = []) :
    ExitsTold s e ↔ LeavesNobody s fd room := by
  constructor
  · rintro ht c hc rfl hne hgo d hd hdf hroom
    have hsent := ht c hc ((hexits c hc rfl).mpr ⟨hne, hgo⟩) d ((others_same h he ha hdf).mpr hd)
      hdf hroom
    rw [hsilent c hc rfl hgo d hd hdf hroom] at hsent
    cases hsent
  · intro hn c hc hx d hd hdf hroom
    obtain rfl : c.fd = fd := Option.some.inj ((hx.actor h he hc).symm.trans ha)
    obtain ⟨hne, hgo⟩ := (hexits c hc rfl).mp hx
    exact absurd hroom (hn c hc rfl hne hgo d ((others_same h he ha hdf).mp hd) hdf)

theorem told_hangup (h : Consistent reserved s) (he : Enabled reserved s (.hangup fd)) :
    ExitsTold s (.hangup fd) ↔ GoesAlone s (.hangup fd) := by
  have hgone : directory (serve s (.hangup fd)).1 fd = none := by
    rw [serve_directory h he]
    exact Function.update_self ..
  refine told_iff_silent h he rfl (fun c hc hfd => ?_) (fun _ _ _ _ _ _ _ _ => rfl)
  refine exits_iff h he (fun p hp => ?_) fun _ => rfl
  rw [hfd, hgone] at hp
  cases hp

/-- A command that leaves the room of its sender as it is. -/
theorem told_stays (h : Consistent reserved s) (he : Enabled reserved s e) (ha : actor e = some fd)
    {self : Client} (hself : self ∈ s.clients) (hfd : self.fd = fd) {p : Profile}
    (hp : directory (serve s e).1 fd = some p) (hroom : p.room = self.room) : ExitsTold s e := by
  intro c hc hx
  obtain rfl : c.fd = fd := Option.some.inj ((hx.actor h he hc).symm.trans ha)
  obtain rfl := h.distinct.eq_of_key hself hc hfd
  obtain ⟨c', hc', hcfd, rfl⟩ :=
    (directory_eq_some (serve_consistent h he).distinct).mp hp
  exact absurd (congrArg CharArray.text hroom) (hx.2 c' hc' hcfd)

/-- `/leave` tells everybody who stays. -/
theorem told_leave (h : Consistent reserved s) {buf : List Byte}
    (he : Enabled reserved s (.receive fd buf)) (hcmd : commandOf buf = .leave) :
    ExitsTold s (.receive fd buf) := by
  intro c hc hx d hd hdf hroom
  obtain rfl : fd = c.fd := Option.some.inj (hx.actor h he hc)
  obtain ⟨self, hfind, hfd⟩ := h.find he.1
  obtain rfl := h.distinct.eq_of_key (mem_of_lookup hfind) hc hfd
  rw [others_same h he rfl hdf] at hd
  rw [serve, receive_eq_perform hfind, hcmd, perform, leave, if_pos hx.1, sentTo_append,
    sentTo_broadcast h.distinct hd hdf, if_pos hroom, sentTo_self hdf (by simp), List.append_nil]
  rfl

theorem told_join (h : Consistent reserved s) {buf room : List Byte}
    (he : Enabled reserved s (.receive fd buf)) (hcmd : commandOf buf = .join room) :
    ExitsTold s (.receive fd buf) ↔ LeavesNobody s fd (room.take (roomLen - 1)) := by
  obtain ⟨self, hfind, rfl⟩ := h.find he.1
  have hstored : (CharArray.print room : CharArray roomLen).text = room.take (roomLen - 1) :=
    CharArray.print_text (join_noNul hcmd)
  have hdir : directory (serve s (.receive self.fd buf)).1 self.fd =
      some { profile self with room := .print room } := by
    rw [serve_directory h he, Directory.apply, hcmd]
    exact directory_modify_self hfind
  refine told_iff_silent h he rfl (fun c hc hfd => ?_) fun c hc hfd hgo d hd hdf hroom => ?_
  · rw [← hfd] at hdir
    refine exits_iff h he (fun p hp => ?_) fun hn => ?_
    · rw [hfd] at hp hdir
      rw [hdir] at hp
      cases hp
      exact hstored
    · rw [hfd] at hn hdir
      rw [hdir] at hn
      cases hn
  · rw [serve, receive_eq_perform hfind, hcmd, perform, join_sends h self room hd hdf, if_neg]
    intro harg
    have hfits := c.room.fits
    rw [← hroom, harg] at hfits hgo
    exact hgo (List.take_of_length_le (Nat.le_sub_one_of_lt hfits)).symm

theorem told_quit (h : Consistent reserved s) {buf : List Byte}
    (he : Enabled reserved s (.receive fd buf)) (hcmd : commandOf buf = .quit) :
    ExitsTold s (.receive fd buf) ↔ LeavesNobody s fd [] := by
  obtain ⟨self, hfind, rfl⟩ := h.find he.1
  have hgone : directory (serve s (.receive self.fd buf)).1 self.fd = none := by
    rw [serve_directory h he, Directory.apply, hcmd]
    exact Function.update_self ..
  refine told_iff_silent h he rfl (fun c hc hfd => ?_) fun _ _ _ _ d _ hdf _ => ?_
  · refine exits_iff h he (fun p hp => ?_) fun _ => rfl
    rw [hfd, hgone] at hp
    cases hp
  · rw [serve, receive_eq_perform hfind, hcmd, perform, quit]
    exact sentTo_self hdf (by simp)

theorem told_iff (h : Consistent reserved s) (he : Enabled reserved s e) :
    ExitsTold s e ↔ GoesAlone s e := by
  cases e with
  | accept fd =>
    refine iff_of_true (fun c hc hx => ?_) trivial
    have ha := hx.actor h he hc
    exact absurd (List.mem_map.mpr ⟨c, hc, (Option.some.inj ha).symm⟩) (h.fresh he.1)
  | acceptFailed => exact iff_of_true (fun c hc hx => by cases hx.actor h he hc) trivial
  | hangup fd => exact told_hangup h he
  | receive fd buf =>
    obtain ⟨self, hfind, hfd⟩ := h.find he.1
    have hself := mem_of_lookup hfind
    have hdir : directory s fd = some (profile self) := by rw [directory, hfind]; rfl
    simp only [GoesAlone]
    cases hcmd : commandOf buf with
    | join room => exact told_join h he hcmd
    | leave => exact iff_of_true (told_leave h he hcmd) trivial
    | quit => exact told_quit h he hcmd
    | nick name =>
      refine iff_of_true (told_stays h he rfl hself hfd
        (p := { profile self with name := .print name }) ?_ rfl) trivial
      rw [serve_directory h he, Directory.apply, hcmd]
      simp [Directory.modify, hdir]
    | list | unknown | chat =>
      refine iff_of_true (told_stays h he rfl hself hfd (p := profile self) ?_ rfl) trivial
      rw [serve_directory h he, Directory.apply, hcmd]
      exact hdir

/-- In every run the exits are told step by step exactly as long as whoever goes without `/leave`
goes alone. -/
theorem exits_told_iff (reserved : Finset Fd) (es : List Event) (h : (machine reserved).Valid es) :
    (machine reserved).Along ExitsTold es ↔ (machine reserved).Along GoesAlone es :=
  Machine.along_congr (fun _ _ hv _ he => told_iff (run_consistent hv) he) h h

/-- A member leaves, and the other one disconnects. -/
theorem exits_told_leave :
    (machine {0, 1, 2, 3, 4}).Along ExitsTold [.accept 5, .accept 6, .receive 5 (ascii "/join a\n"),
      .receive 6 (ascii "/join a\n"), .receive 5 (ascii "/leave\n"), .hangup 6] :=
  (exits_told_iff {0, 1, 2, 3, 4} _ (by decide)).mpr (by decide)

/-- A member of a room disconnects, and the other one is sent nothing. -/
theorem disconnect_not_told :
    ¬ ∀ es, (machine {0, 1, 2, 3, 4}).Valid es → (machine {0, 1, 2, 3, 4}).Along ExitsTold es := by
  intro hall
  have ht := hall [.accept 5, .accept 6, .receive 5 (ascii "/join a\n"),
    .receive 6 (ascii "/join a\n"), .hangup 5] (by decide)
  revert ht
  decide

end RoomChatNotices
