import LinuxLabs.RoomChatIsolation

/-! # Each `recv` result is one message
The server keeps no bytes between `recv` calls, so how a client's stream is cut decides
what it means. `Inert` says that a piece changes nothing and tells nobody; the outcome is
the same for all cuts exactly when every piece a `recv` could return is inert. -/
namespace RoomChatSegmentation

open Execution CString KeyedTable RoomChatServer RoomChatTable RoomChatIsolation

/-- The successive `recv` results of one connection; nothing is read once it is closed. -/
def feed (s : Server) (fd : Fd) : List (List Byte) → Server × List Send
  | [] => (s, [])
  | buf :: rest =>
    if fd ∈ s.openFds then
      let r := serve s (.receive fd buf)
      let t := feed r.1 fd rest
      (t.1, r.2 ++ t.2)
    else (s, [])

structure Cut (stream : List Byte) (pieces : List (List Byte)) : Prop where
  joined : pieces.flatten = stream
  sizes : ∀ buf ∈ pieces, 1 ≤ buf.length ∧ buf.length ≤ bufSize - 1

def sentTo (k : Fd) (sends : List Send) : List (List Byte) :=
  (sends.filter fun m => m.1 = k).map Prod.snd

/-- The same name, room and connected status for `fd`, the same messages for the others. -/
def SameOutcome (fd : Fd) (a b : Server × List Send) : Prop :=
  directory a.1 fd = directory b.1 fd ∧ ∀ k, k ≠ fd → sentTo k a.2 = sentTo k b.2

def SegmentationIndependent (s : Server) (fd : Fd) (stream : List Byte) : Prop :=
  ∀ a b, Cut stream a → Cut stream b → SameOutcome fd (feed s fd a) (feed s fd b)

structure Line (line : List Byte) : Prop where
  terminated : ∃ body, newline ∉ body ∧ line = body ++ [newline]
  fits : line.length ≤ bufSize - 1

/-- No other client has this non-empty room. -/
def Unheard (s : Server) (self : Client) (room : List Byte) : Prop :=
  ∀ c ∈ s.clients, c.fd ≠ self.fd → c.room.text ≠ room

def InertCommand (s : Server) (self : Client) : Command → Prop
  | .nick name => CharArray.print name = self.name
  | .join room => CharArray.print room = self.room ∧ Unheard s self room
  | .leave => self.room.text = []
  | .quit => False
  | .list | .unknown => True
  | .chat => self.room.text = [] ∨ Unheard s self self.room.text

def Inert (s : Server) (self : Client) (buf : List Byte) : Prop :=
  InertCommand s self (commandOf buf)

variable {reserved : Finset Fd} {s : Server} {self : Client}

@[simp] theorem sentTo_append (k : Fd) (a b : List Send) :
    sentTo k (a ++ b) = sentTo k a ++ sentTo k b := by
  simp [sentTo]

theorem sentTo_eq_nil {k : Fd} {sends : List Send} (h : ∀ m ∈ sends, m.1 ≠ k) :
    sentTo k sends = [] := by
  rw [sentTo, List.map_eq_nil_iff, List.filter_eq_nil_iff]
  intro m hm
  simpa using h m hm

theorem sentTo_self {fd k : Fd} (h : k ≠ fd) {sends : List Send} (hs : ∀ m ∈ sends, m.1 = fd) :
    sentTo k sends = [] :=
  sentTo_eq_nil fun m hm hk => h (hk.symm.trans (hs m hm))

/-- A broadcast puts one message on a listed member's connection. -/
theorem sentTo_broadcast (h : Distinct Client.fd s.clients) {c : Client} (hc : c ∈ s.clients)
    {fd : Fd} (hf : c.fd ≠ fd) (room msg : List Byte) :
    sentTo c.fd (broadcastRoom s room msg fd) = if c.room.text = room then [msg] else [] := by
  have hself : s.clients.filter (fun a => a.fd = c.fd) = [c] := filter_key h hc
  have hmap : sentTo c.fd (broadcastRoom s room msg fd) =
      (((s.clients.filter fun a => a.fd = c.fd).filter
        fun a => a.room.text = room ∧ a.fd ≠ fd).map fun _ => msg) := by
    rw [sentTo, broadcastRoom, List.filter_map, List.map_map, List.filter_filter,
      List.filter_filter]
    congr 1
    refine List.filter_congr fun a _ => ?_
    simp [Bool.and_comm]
  rw [hmap, hself]
  by_cases hr : c.room.text = room <;> simp [hr, hf]

theorem broadcast_unheard {room : List Byte} (h : Unheard s self room) (msg : List Byte) :
    broadcastRoom s room msg self.fd = [] := by
  rw [broadcastRoom, List.map_eq_nil_iff, List.filter_eq_nil_iff]
  intro c hc
  simpa using fun hr => by_contra fun hf => h c hc hf hr

/-! ## Inert pieces -/

theorem storeClient_self (h : findClientByFd s self.fd = some self) {f : Client → Client}
    (hf : f self = self) : storeClient s self.fd f = s := by
  have hstay : update Client.fd self.fd f s.clients = s.clients :=
    update_eq_self fun c hc => by
      obtain rfl : self = c := Option.some.inj (h.symm.trans hc)
      exact hf
  rw [storeClient, hstay]

theorem perform_inert {buf : List Byte} (h : findClientByFd s self.fd = some self)
    (hi : Inert s self buf) :
    (perform s self buf (commandOf buf)).1 = s ∧
      ∀ m ∈ (perform s self buf (commandOf buf)).2, m.1 = self.fd := by
  unfold Inert at hi
  cases hc : commandOf buf with
  | nick name =>
    simp only [hc, InertCommand] at hi
    exact ⟨storeClient_self h (by rw [hi]), by simp [perform, nick]⟩
  | join room =>
    simp only [hc, InertCommand] at hi
    have hs : storeClient s self.fd (fun c => { c with room := .print room }) = s :=
      storeClient_self h (by rw [hi.1])
    refine ⟨hs, ?_⟩
    simp only [perform, join, hs, broadcast_unheard hi.2]
    simp
  | leave =>
    simp only [hc, InertCommand] at hi
    simp [perform, leave, hi]
  | quit => simp [hc, InertCommand] at hi
  | list | unknown => simp [perform]
  | chat =>
    simp only [hc, InertCommand] at hi
    by_cases hr : self.room.text = []
    · simp [perform, hr]
    · simp only [perform, if_neg hr, broadcast_unheard (hi.resolve_left hr)]
      simp

theorem directory_self (h : findClientByFd s self.fd = some self) :
    directory s self.fd = some (profile self) := by
  rw [directory, h, Option.map_some]

theorem directory_modify_self (h : findClientByFd s self.fd = some self) {g : Profile → Profile} :
    (directory s).modify self.fd g self.fd = some (g (profile self)) := by
  rw [Directory.modify, Function.update_self, directory_self h, Option.map_some]

/-- A command that is not inert shows: in the client's own entry or at another client. -/
theorem perform_shows (hs : Consistent reserved s) (h : findClientByFd s self.fd = some self)
    {buf : List Byte} (hi : ¬ Inert s self buf) (hc : commandOf buf ≠ .chat) :
    directory (perform s self buf (commandOf buf)).1 self.fd ≠ directory s self.fd ∨
      ∃ k, k ≠ self.fd ∧ sentTo k (perform s self buf (commandOf buf)).2 ≠ [] := by
  have heff : directory (perform s self buf (commandOf buf)).1 =
      (directory s).apply (.receive self.fd buf) := by
    rw [perform_server h, effect_directory hs]
  rw [heff, directory_self h]
  unfold Inert at hi
  simp only [Directory.apply]
  cases hcmd : commandOf buf with
  | nick name =>
    simp only [hcmd, InertCommand] at hi
    left
    dsimp only
    rw [directory_modify_self h]
    exact fun he => hi (congrArg Profile.name (Option.some.inj he))
  | join room =>
    simp only [hcmd, InertCommand] at hi
    by_cases hr : CharArray.print room = self.room
    · right
      have hheard : ¬ Unheard s self room := fun hu => hi ⟨hr, hu⟩
      obtain ⟨c, hcm, hcf, hcr⟩ : ∃ c ∈ s.clients, c.fd ≠ self.fd ∧ c.room.text = room := by
        simpa [Unheard] using hheard
      have hstay : storeClient s self.fd (fun c => { c with room := .print room }) = s :=
        storeClient_self h (by rw [hr])
      refine ⟨c.fd, hcf, ?_⟩
      rw [perform, join, hstay, ← List.singleton_append, sentTo_append,
        sentTo_broadcast hs.distinct hcm hcf, if_pos hcr]
      simp
    · left
      dsimp only
      rw [directory_modify_self h]
      exact fun he => hr (congrArg Profile.room (Option.some.inj he))
  | leave =>
    simp only [hcmd, InertCommand] at hi
    left
    dsimp only
    rw [directory_modify_self h]
    intro he
    have hroom : CharArray.empty = self.room := congrArg Profile.room (Option.some.inj he)
    exact hi (by rw [← hroom]; rfl)
  | quit =>
    left
    dsimp only
    rw [Function.update_self]
    simp
  | list | unknown => simp [hcmd, InertCommand] at hi
  | chat => exact absurd hcmd hc

/-! ## Feeding pieces -/

theorem feed_append (s : Server) (fd : Fd) (a b : List (List Byte)) :
    feed s fd (a ++ b) =
      ((feed (feed s fd a).1 fd b).1, (feed s fd a).2 ++ (feed (feed s fd a).1 fd b).2) := by
  induction a generalizing s with
  | nil => simp [feed]
  | cons buf rest ih =>
    by_cases ho : fd ∈ s.openFds
    · simp [feed, ho, ih, List.append_assoc]
    · cases b <;> simp [feed, ho]

theorem feed_one {fd : Fd} (ho : fd ∈ s.openFds) (buf : List Byte) :
    feed s fd [buf] = receive s fd buf := by
  simp [feed, ho, serve]

/-- Pieces that leave the server as it is are answered one by one. -/
theorem feed_still {fd : Fd} (ho : fd ∈ s.openFds) {pieces : List (List Byte)}
    (h : ∀ buf ∈ pieces, (receive s fd buf).1 = s) :
    feed s fd pieces = (s, pieces.flatMap fun buf => (receive s fd buf).2) := by
  induction pieces with
  | nil => rfl
  | cons buf rest ih =>
    have hb := h buf List.mem_cons_self
    have hr := ih fun b hm => h b (List.mem_cons_of_mem _ hm)
    simp [feed, ho, serve, hb, hr]

/-- The cut into single bytes. -/
def singles (bytes : List Byte) : List (List Byte) := bytes.map fun b => [b]

theorem singles_flatten (bytes : List Byte) : (singles bytes).flatten = bytes := by
  induction bytes with
  | nil => rfl
  | cons b rest ih => simpa [singles] using ih

theorem singles_sizes (bytes : List Byte) :
    ∀ buf ∈ singles bytes, 1 ≤ buf.length ∧ buf.length ≤ bufSize - 1 := by
  simp [singles, bufSize]

theorem commandOf_single (b : Byte) : commandOf [b] = if b = slash then .unknown else .chat := by
  by_cases hb : b = slash
  · subst hb
    decide
  · simp [commandOf, hb]

theorem effect_single (s : Server) (fd : Fd) (b : Byte) : effect s fd (commandOf [b]) = s := by
  rw [commandOf_single]
  split <;> rfl

theorem feed_singles_server (hs : Consistent reserved s) {fd : Fd} (hr : fd ∉ reserved)
    (bytes : List Byte) : (feed s fd (singles bytes)).1 = s := by
  by_cases ho : fd ∈ s.openFds
  · rw [feed_still ho]
    intro buf hm
    obtain ⟨b, _, rfl⟩ := List.mem_map.mp hm
    rw [receive_server hs ⟨ho, hr⟩, effect_single]
  · cases bytes <;> simp [singles, feed, ho]

/-- Inert pieces one after another: nothing changes and nobody else hears of it. -/
theorem feed_inert (h : findClientByFd s self.fd = some self) (ho : self.fd ∈ s.openFds)
    {pieces : List (List Byte)}
    (hi : ∀ buf ∈ pieces, Inert s self buf) :
    (feed s self.fd pieces).1 = s ∧ ∀ k, k ≠ self.fd → sentTo k (feed s self.fd pieces).2 = [] := by
  have hstep : ∀ buf ∈ pieces, (receive s self.fd buf).1 = s ∧
      ∀ m ∈ (receive s self.fd buf).2, m.1 = self.fd := by
    intro buf hm
    rw [receive_eq_perform h]
    exact perform_inert h (hi buf hm)
  rw [feed_still ho fun buf hm => (hstep buf hm).1]
  refine ⟨rfl, fun k hk => sentTo_self hk fun m hm => ?_⟩
  obtain ⟨buf, hb, hm⟩ := List.mem_flatMap.mp hm
  exact (hstep buf hb).2 m hm

theorem inert_single (hu : self.room.text = [] ∨ Unheard s self self.room.text) (b : Byte) :
    Inert s self [b] := by
  rw [Inert, commandOf_single]
  split
  · trivial
  · exact hu

theorem independent_of_inert (h : findClientByFd s self.fd = some self)
    (ho : self.fd ∈ s.openFds) {stream : List Byte}
    (hi : ∀ w, w <:+: stream → 1 ≤ w.length → w.length ≤ bufSize - 1 → Inert s self w) :
    SegmentationIndependent s self.fd stream := by
  have still : ∀ a, Cut stream a → (feed s self.fd a).1 = s ∧
      ∀ k, k ≠ self.fd → sentTo k (feed s self.fd a).2 = [] := by
    intro a ha
    refine feed_inert h ho fun buf hm => hi buf ?_ (ha.sizes buf hm).1 (ha.sizes buf hm).2
    rw [← ha.joined]
    exact List.infix_of_mem_flatten hm
  intro a b ha hb
  obtain ⟨ha1, ha2⟩ := still a ha
  obtain ⟨hb1, hb2⟩ := still b hb
  exact ⟨by rw [ha1, hb1], fun k hk => by rw [ha2 k hk, hb2 k hk]⟩

/-! ## Two cuts that differ -/

theorem receive_chat_server (h : findClientByFd s self.fd = some self) {buf : List Byte}
    (hb : commandOf buf = .chat ∨ commandOf buf = .unknown) : (receive s self.fd buf).1 = s := by
  rw [receive_eq_perform h, perform_server h]
  rcases hb with hb | hb <;> rw [hb] <;> rfl

/-- What a roommate is sent for a piece that is chat text or an unknown command. -/
theorem sentTo_roommate (hs : Consistent reserved s) (h : findClientByFd s self.fd = some self)
    {c : Client} (hc : c ∈ s.clients) (hcf : c.fd ≠ self.fd) (hcr : c.room.text = self.room.text)
    (hne : self.room.text ≠ []) (buf : List Byte) :
    (commandOf buf = .chat → sentTo c.fd (receive s self.fd buf).2 = [chatMessage self buf]) ∧
    (commandOf buf = .unknown → sentTo c.fd (receive s self.fd buf).2 = []) := by
  rw [receive_eq_perform h]
  constructor
  · intro hb
    rw [hb, perform, if_neg hne, sentTo_broadcast hs.distinct hc hcf, if_pos hcr]
  · intro hb
    rw [hb, perform]
    exact sentTo_self hcf (by simp)

/-- With a roommate, joining the last two bytes into one piece loses a message. -/
theorem roommate_dependent (hs : Consistent reserved s)
    (h : findClientByFd s self.fd = some self) (hr : self.fd ∈ s.openFds ∧ self.fd ∉ reserved)
    {c : Client} (hc : c ∈ s.clients) (hcf : c.fd ≠ self.fd) (hcr : c.room.text = self.room.text)
    (hne : self.room.text ≠ []) (front : List Byte) (x : Byte) :
    ¬ SegmentationIndependent s self.fd (front ++ [x, newline]) := by
  intro hind
  have hcut1 : Cut (front ++ [x, newline]) (singles front ++ [[x], [newline]]) := by
    refine ⟨by simp [singles_flatten], fun buf hm => ?_⟩
    rcases List.mem_append.mp hm with hm | hm
    · exact singles_sizes front buf hm
    · exact singles_sizes [x, newline] buf hm
  have hcut2 : Cut (front ++ [x, newline]) (singles front ++ [[x, newline]]) := by
    refine ⟨by simp [singles_flatten], fun buf hm => ?_⟩
    rcases List.mem_append.mp hm with hm | hm
    · exact singles_sizes front buf hm
    · obtain rfl := List.mem_singleton.mp hm
      simp [bufSize]
  have hx : commandOf [x, newline] = commandOf [x] := by
    by_cases hb : x = slash
    · subst hb
      decide
    · simp [commandOf, hb]
  have hkind : commandOf [x] = .chat ∨ commandOf [x] = .unknown := by
    rw [commandOf_single]
    split
    · exact Or.inr rfl
    · exact Or.inl rfl
  have hnl : commandOf [newline] = .chat := by decide
  have hsame := (hind _ _ hcut1 hcut2).2 c.fd hcf
  have htwo : feed s self.fd [[x], [newline]] =
      (s, (receive s self.fd [x]).2 ++ (receive s self.fd [newline]).2) := by
    rw [feed_still hr.1]
    · simp
    · intro buf hm
      simp only [List.mem_cons, List.not_mem_nil, or_false] at hm
      rcases hm with rfl | rfl
      · exact receive_chat_server h hkind
      · exact receive_chat_server h (Or.inl hnl)
  rw [feed_append, feed_append, feed_singles_server hs hr.2, feed_one hr.1, htwo] at hsame
  simp only [sentTo_append, List.append_cancel_left_eq] at hsame
  have hroom := sentTo_roommate hs h hc hcf hcr hne
  rw [(hroom [newline]).1 hnl] at hsame
  rcases hkind with hk | hk
  · rw [(hroom [x]).1 hk, (hroom [x, newline]).1 (hx.trans hk)] at hsame
    simp at hsame
  · rw [(hroom [x]).2 hk, (hroom [x, newline]).2 (hx.trans hk)] at hsame
    simp at hsame

/-- With no roommate, a command that is not inert shows when one piece holds exactly it. -/
theorem command_dependent (hs : Consistent reserved s)
    (h : findClientByFd s self.fd = some self) (hr : self.fd ∈ s.openFds ∧ self.fd ∉ reserved)
    (hu : self.room.text = [] ∨ Unheard s self self.room.text) {w : List Byte}
    (hw : 1 ≤ w.length ∧ w.length ≤ bufSize - 1) (hi : ¬ Inert s self w)
    (p q : List Byte) : ¬ SegmentationIndependent s self.fd (p ++ w ++ q) := by
  intro hind
  have hcut1 : Cut (p ++ w ++ q) (singles (p ++ w ++ q)) :=
    ⟨singles_flatten _, singles_sizes _⟩
  have hcut2 : Cut (p ++ w ++ q) (singles p ++ ([w] ++ singles q)) := by
    refine ⟨by simp [singles_flatten], fun buf hm => ?_⟩
    simp only [List.mem_append, List.mem_singleton] at hm
    rcases hm with hm | rfl | hm
    · exact singles_sizes p buf hm
    · exact hw
    · exact singles_sizes q buf hm
  have quiet : ∀ bytes, (feed s self.fd (singles bytes)).1 = s ∧
      ∀ k, k ≠ self.fd → sentTo k (feed s self.fd (singles bytes)).2 = [] := by
    intro bytes
    refine feed_inert h hr.1 fun buf hm => ?_
    obtain ⟨b, _, rfl⟩ := List.mem_map.mp hm
    exact inert_single hu b
  have hchat : commandOf w ≠ .chat := fun hc => hi (by rw [Inert, hc]; exact hu)
  obtain ⟨hdir, hsent⟩ := hind _ _ hcut1 hcut2
  have hnext : Consistent reserved (receive s self.fd w).1 := by
    rw [receive_server hs hr]
    exact hs.effect hr _
  simp only [feed_append, (quiet p).1, feed_one hr.1, feed_singles_server hnext hr.2] at hdir hsent
  rw [(quiet _).1] at hdir
  rw [receive_eq_perform h] at hdir hsent
  rcases perform_shows hs h hi hchat with hd | ⟨k, hk, hd⟩
  · exact hd hdir.symm
  · have hk' := hsent k hk
    rw [(quiet _).2 k hk, sentTo_append, sentTo_append, (quiet p).2 k hk] at hk'
    simp only [List.nil_append] at hk'
    exact hd (List.append_eq_nil_iff.mp hk'.symm).1

/-! ## The exact condition -/

theorem lines_end {lines : List (List Byte)} (hl : ∀ l ∈ lines, Line l)
    (hne : lines.flatten ≠ []) : ∃ front, lines.flatten = front ++ [newline] := by
  rcases List.eq_nil_or_concat' lines with rfl | ⟨init, last, rfl⟩
  · exact absurd rfl hne
  · obtain ⟨body, _, hlast⟩ := (hl last (by simp)).terminated
    exact ⟨init.flatten ++ body, by simp [hlast]⟩

theorem cut_short {stream : List Byte} (h : stream.length ≤ 1) {a : List (List Byte)}
    (ha : Cut stream a) : a = if stream = [] then [] else [stream] := by
  obtain ⟨rfl, hsize⟩ := ha
  cases a with
  | nil => simp
  | cons buf rest =>
    have hb := hsize buf List.mem_cons_self
    simp only [List.flatten_cons, List.length_append] at h
    have hrest : rest = [] := by
      cases rest with
      | nil => rfl
      | cons buf' rest' =>
        have hb' := hsize buf' (by simp)
        simp only [List.flatten_cons, List.length_append] at h
        omega
    subst hrest
    have hne : buf ≠ [] := List.ne_nil_of_length_pos hb.1
    simp [hne]

/-- In every reachable state, for every client and every sequence of lines: the outcome is
the same for all cuts exactly when there is at most one byte, or no piece that a `recv`
could return would show. -/
theorem segmentation_independent_iff (reserved : Finset Fd) (es : List Event)
    (h : (machine reserved).Valid es) (self : Client)
    (hself : self ∈ ((machine reserved).run es).clients)
    (lines : List (List Byte)) (hl : ∀ l ∈ lines, Line l) :
    let s := (machine reserved).run es
    SegmentationIndependent s self.fd lines.flatten ↔
      lines.flatten.length ≤ 1 ∨
        ∀ w, w <:+: lines.flatten → 1 ≤ w.length → w.length ≤ bufSize - 1 → Inert s self w := by
  intro s
  have hs : Consistent reserved s := run_consistent h
  have hfind : findClientByFd s self.fd = some self := (lookup_eq_some hs.distinct).mpr ⟨hself, rfl⟩
  have hr := (hs.opened self.fd).mp (List.mem_map_of_mem hself)
  constructor
  · intro hind
    by_contra hn
    push Not at hn
    obtain ⟨hlen, w, hw, h1, h2, hni⟩ := hn
    by_cases hu : self.room.text = [] ∨ Unheard s self self.room.text
    · obtain ⟨p, q, hpq⟩ := hw
      exact command_dependent hs hfind hr hu ⟨h1, h2⟩ hni p q (hpq ▸ hind)
    · obtain ⟨hne, hheard⟩ := not_or.mp hu
      obtain ⟨c, hc, hcf, hcr⟩ :
          ∃ c ∈ s.clients, c.fd ≠ self.fd ∧ c.room.text = self.room.text := by
        simpa [Unheard] using hheard
      obtain ⟨most, hmost⟩ := lines_end hl (List.ne_nil_of_length_pos (by omega))
      have hmlen : most ≠ [] := by
        rintro rfl
        simp [hmost] at hlen
      obtain ⟨front, x, rfl⟩ := (List.eq_nil_or_concat' most).resolve_left hmlen
      refine roommate_dependent hs hfind hr hc hcf hcr hne front x ?_
      simpa [hmost] using hind
  · rintro (hlen | hi)
    · intro a b ha hb
      rw [cut_short hlen ha, cut_short hlen hb]
      exact ⟨rfl, fun _ _ => rfl⟩
    · exact independent_of_inert hfind hr.1 hi

/-- Two commands in one `recv`: the second is dropped. -/
theorem coalesced_commands_differ :
    ¬ ∀ (reserved : Finset Fd) (es : List Event), (machine reserved).Valid es →
      ∀ self ∈ ((machine reserved).run es).clients, ∀ lines : List (List Byte),
        (∀ l ∈ lines, Line l) →
          SegmentationIndependent ((machine reserved).run es) self.fd lines.flatten := by
  intro hall
  have hline : ∀ l ∈ [ascii "/nick mango\n", ascii "/join kernel\n"], Line l := by
    intro l hm
    simp only [List.mem_cons, List.not_mem_nil, or_false] at hm
    rcases hm with rfl | rfl
    · exact ⟨⟨ascii "/nick mango", by decide, by decide⟩, by decide⟩
    · exact ⟨⟨ascii "/join kernel", by decide, by decide⟩, by decide⟩
  have hind := hall {0, 1, 2, 3, 4} [.accept 5] (by decide) ⟨5, .empty, .empty⟩ (by decide) _ hline
  have hsame := (hind [ascii "/nick mango\n", ascii "/join kernel\n"]
    [ascii "/nick mango\n/join kernel\n"] ⟨by decide, by decide⟩ ⟨by decide, by decide⟩).1
  revert hsame
  decide

/-- A client alone in its room writes one line of chat: no piece of it shows. -/
theorem segmentation_independent_alone :
    let s := (machine {0, 1, 2, 3, 4}).run [.accept 5, .receive 5 (ascii "/join a\n")]
    SegmentationIndependent s 5 [ascii "hi\n"].flatten ↔
      [ascii "hi\n"].flatten.length ≤ 1 ∨
        ∀ w, w <:+: [ascii "hi\n"].flatten → 1 ≤ w.length → w.length ≤ bufSize - 1 →
          Inert s ⟨5, .empty, .print (ascii "a")⟩ w := by
  exact segmentation_independent_iff {0, 1, 2, 3, 4} _ (by decide) ⟨5, .empty, .print (ascii "a")⟩
    (by decide) [ascii "hi\n"] (by
      intro l hm
      obtain rfl := List.mem_singleton.mp hm
      exact ⟨⟨ascii "hi", by decide, by decide⟩, by decide⟩)

end RoomChatSegmentation
