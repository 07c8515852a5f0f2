import LinuxLabs.Channel
import LinuxLabs.EpollChatServer
import LinuxLabs.Room

/-! # The chat server on `epoll` and its clients (lab 14)
Each client sends the lines it is given and shows what it receives, and the server stands between
them. A `send` of the server may take only a part of a chunk or nothing, of which it takes no
notice; a run goes on up to the `send` that ends the server with SIGPIPE. Connections are numbered
in the order in which they were accepted. -/
namespace ChatSystem

open Execution CString Channel EpollChatServer

abbrev Conn := ℕ

/-- `log` is history; the server's descriptors belong to the connections `conn` says. -/
structure State where
  server : Server
  conn : Fd → Conn
  accepted : ℕ
  up : Conn → Stream Byte
  down : Conn → Stream Byte
  closed : Conn → Bool
  shown : Conn → List Byte
  log : List (Room.Entry Conn Byte)

variable (reserved : Finset Fd)

def initial : State where
  server := ⟨[], reserved⟩
  conn _ := 0
  accepted := 0
  up _ := .empty
  down _ := .empty
  closed _ := false
  shown _ := []
  log := []

/-- `taken` says how much of the chunk each of the `send` calls takes. -/
inductive Event where
  | accept (fd : Fd) (taken : Fd → ℕ)
  | receive (fd : Fd) (n : ℕ) (taken : Fd → ℕ)
  | hangup (fd : Fd)
  | input (c : Conn) (line : List Byte)
  | endOfInput (c : Conn)
  | print (c : Conn) (n : ℕ)

/-- The chunk that `recv` returns. -/
def State.chunk (s : State) (fd : Fd) (n : ℕ) : List Byte := (s.up (s.conn fd)).pending.take n

/-- The client's `fgets` fills a buffer of the server's size, and both sides leave room in it for a
terminator. -/
def Enabled (s : State) : Event → Prop
  | .accept fd _ => EpollChatServer.Enabled reserved s.server (.accept fd)
  | .receive fd n _ => EpollChatServer.Enabled reserved s.server (.receive fd (s.chunk fd n))
  | .hangup fd => EpollChatServer.Enabled reserved s.server (.hangup fd)
  | .input c line => c < s.accepted ∧ s.closed c = false ∧ line.length < bufferSize
  | .endOfInput c => c < s.accepted ∧ s.closed c = false
  | .print c n => s.closed c = false ∧ 1 ≤ ((s.down c).pending.take n).length ∧ n < bufferSize

def deliver (conn : Fd → Conn) (taken : Fd → ℕ) (down : Conn → Stream Byte) (x : Send) :
    Conn → Stream Byte :=
  Function.update down (conn x.1) ((down (conn x.1)).write (x.2.take (taken x.1)))

/-- The client sends its line up to the terminator. -/
def next (s : State) : Event → State
  | .accept fd taken =>
    let conn := Function.update s.conn fd s.accepted
    let (server, sends) := serve s.server (.accept fd)
    { s with
      server := server
      conn := conn
      accepted := s.accepted + 1
      down := sends.foldl (deliver conn taken) s.down
      log := s.log ++ [.joined s.accepted (joined fd)] }
  | .receive fd n taken =>
    let c := s.conn fd
    let (server, sends) := serve s.server (.receive fd (s.chunk fd n))
    { s with
      server := server
      up := Function.update s.up c ((s.up c).read n)
      down := sends.foldl (deliver s.conn taken) s.down
      log := s.log ++ [.said c (s.chunk fd n)] }
  | .hangup fd =>
    { s with
      server := (serve s.server (.hangup fd)).1
      log := s.log ++ [.left (s.conn fd)] }
  | .input c line => { s with up := Function.update s.up c ((s.up c).write (cstr line)) }
  | .endOfInput c => { s with closed := Function.update s.closed c true }
  | .print c n =>
    { s with
      down := Function.update s.down c ((s.down c).read n)
      shown := Function.update s.shown c (s.shown c ++ cstr ((s.down c).pending.take n)) }

def machine : Machine State Event := ⟨initial reserved, Enabled reserved, next⟩

instance (s : State) (e : Event) : Decidable ((machine reserved).Enabled s e) := by
  simp only [machine]
  casesm Event <;> simp only [Enabled, EpollChatServer.Enabled] <;> infer_instance

/-- Each `send` takes all it is given. -/
def Whole (s : State) : Event → Prop
  | .accept fd taken => ∀ x ∈ (serve s.server (.accept fd)).2, x.2.length ≤ taken x.1
  | .receive fd n taken =>
    ∀ x ∈ (serve s.server (.receive fd (s.chunk fd n))).2, x.2.length ≤ taken x.1
  | _ => True

/-! ## One round of the server -/

variable {reserved} {s : State}

/-- What a list of `send` calls brings the connection `r`. -/
def brought (conn : Fd → Conn) (taken : Fd → ℕ) (sends : List Send) (r : Conn) : List Byte :=
  sends.flatMap fun x => if conn x.1 = r then x.2.take (taken x.1) else []

theorem brought_cons (conn : Fd → Conn) (taken : Fd → ℕ) (x : Send) (sends : List Send) (r : Conn) :
    brought conn taken (x :: sends) r =
      (if conn x.1 = r then x.2.take (taken x.1) else []) ++ brought conn taken sends r :=
  List.flatMap_cons

theorem deliver_foldl (conn : Fd → Conn) (taken : Fd → ℕ) (sends : List Send)
    (down : Conn → Stream Byte) (r : Conn) :
    sends.foldl (deliver conn taken) down r = (down r).write (brought conn taken sends r) := by
  induction sends generalizing down with
  | nil => simp [brought, Stream.write]
  | cons x sends ih =>
    rw [List.foldl_cons, ih, deliver, brought_cons]
    by_cases hx : conn x.1 = r
    · subst hx
      simp [Stream.write]
    · rw [Function.update_of_ne (Ne.symm hx), if_neg hx, List.nil_append]

section Broadcast

variable {conn : Fd → Conn} {taken : Fd → ℕ} {clients : List Fd} {fd : Fd} {msg : List Byte}
  {r : Conn}

theorem brought_of_absent (h : ∀ fd' ∈ clients, fd' ≠ fd → conn fd' ≠ r) :
    brought conn taken (broadcast fd clients msg) r = [] := by
  apply List.flatMap_eq_nil_iff.mpr
  intro x hx
  obtain ⟨fd', hmem, rfl⟩ := List.mem_map.mp hx
  obtain ⟨hmem, hne⟩ := List.mem_filter.mp hmem
  exact if_neg (h fd' hmem (of_decide_eq_true hne))

/-- A client on the list is sent the message once. -/
theorem brought_of_mem (hnodup : clients.Nodup)
    (hinj : ∀ a ∈ clients, ∀ b ∈ clients, conn a = conn b → a = b) {fd' : Fd}
    (hmem : fd' ∈ clients) (hne : fd' ≠ fd) (hr : conn fd' = r) :
    brought conn taken (broadcast fd clients msg) r = msg.take (taken fd') := by
  induction clients with
  | nil => cases hmem
  | cons a clients ih =>
    obtain ⟨ha, hnodup⟩ := List.nodup_cons.mp hnodup
    have hinj' : ∀ x ∈ clients, ∀ y ∈ clients, conn x = conn y → x = y := fun x hx y hy =>
      hinj x (List.mem_cons_of_mem a hx) y (List.mem_cons_of_mem a hy)
    by_cases haf : a = fd'
    · have hbroadcast : broadcast fd (a :: clients) msg =
          (a, msg) :: broadcast fd clients msg := by
        simp [broadcast, haf, hne]
      rw [hbroadcast, brought_cons, if_pos (haf ▸ hr), brought_of_absent, List.append_nil, haf]
      intro b hb _ hbr
      have hab := hinj a List.mem_cons_self b (List.mem_cons_of_mem a hb) (haf ▸ hr.trans hbr.symm)
      exact ha (hab ▸ hb)
    · have hmem' : fd' ∈ clients := (List.mem_cons.mp hmem).resolve_left (Ne.symm haf)
      have hother : conn a ≠ r := fun har => haf
        (hinj a List.mem_cons_self fd' (List.mem_cons_of_mem a hmem') (har.trans hr.symm))
      have hrest := ih hnodup hinj' hmem'
      by_cases hafd : a = fd
      · have hbroadcast : broadcast fd (a :: clients) msg = broadcast fd clients msg := by
          simp [broadcast, hafd]
        rw [hbroadcast, hrest]
      · have hbroadcast : broadcast fd (a :: clients) msg =
            (a, msg) :: broadcast fd clients msg := by
          simp [broadcast, hafd]
        rw [hbroadcast, brought_cons, if_neg hother, List.nil_append, hrest]

end Broadcast

/-- The clients beside the sender that `r` may be. -/
def Hears (conn : Fd → Conn) (clients : List Fd) (fd : Fd) (r : Conn) : Prop :=
  ∃ fd' ∈ clients, fd' ≠ fd ∧ conn fd' = r

/-- What the entry of a round is for its hearers. -/
structure Round (conn : Fd → Conn) (taken : Fd → ℕ) (clients : List Fd) (fd : Fd) (msg : List Byte)
    (heard : Conn → List Byte) : Prop where
  nodup : clients.Nodup
  inj : ∀ a ∈ clients, ∀ b ∈ clients, conn a = conn b → a = b
  hears : ∀ r, Hears conn clients fd r → heard r = msg
  silent : ∀ r, ¬ Hears conn clients fd r → heard r = []

section Rounds

variable {conn : Fd → Conn} {taken : Fd → ℕ} {clients : List Fd} {fd : Fd} {msg : List Byte}
  {heard : Conn → List Byte}

theorem Round.brings (h : Round conn taken clients fd msg heard) (r : Conn) :
    brought conn taken (broadcast fd clients msg) r <+: heard r := by
  by_cases hr : Hears conn clients fd r
  · rw [h.hears r hr]
    obtain ⟨fd', hmem, hne, hconn⟩ := hr
    rw [brought_of_mem h.nodup h.inj hmem hne hconn]
    exact List.take_prefix _ _
  · rw [h.silent r hr, brought_of_absent]
    intro fd' hmem hne hconn
    exact hr ⟨fd', hmem, hne, hconn⟩

theorem Round.whole_iff (h : Round conn taken clients fd msg heard) :
    (∀ r, brought conn taken (broadcast fd clients msg) r = heard r) ↔
      ∀ x ∈ broadcast fd clients msg, x.2.length ≤ taken x.1 := by
  constructor
  · intro hall x hx
    obtain ⟨fd', hmem, rfl⟩ := List.mem_map.mp hx
    obtain ⟨hmem, hne⟩ := List.mem_filter.mp hmem
    have hne := of_decide_eq_true hne
    have hone := hall (conn fd')
    rw [h.hears _ ⟨fd', hmem, hne, rfl⟩, brought_of_mem h.nodup h.inj hmem hne rfl] at hone
    exact (List.take_eq_self_iff msg).mp hone
  · intro hall r
    by_cases hr : Hears conn clients fd r
    · rw [h.hears r hr]
      obtain ⟨fd', hmem, hne, hconn⟩ := hr
      rw [brought_of_mem h.nodup h.inj hmem hne hconn]
      apply List.take_of_length_le
      apply hall (fd', msg)
      exact List.mem_map.mpr ⟨fd', List.mem_filter.mpr ⟨hmem, decide_eq_true hne⟩, rfl⟩
    · rw [h.silent r hr, brought_of_absent]
      intro fd' hmem hne hconn
      exact hr ⟨fd', hmem, hne, hconn⟩

end Rounds

theorem append_eq_iff {w a t m : List Byte} (hle : w.length ≤ t.length) (hp : a <+: m) :
    w ++ a = t ++ m ↔ w = t ∧ a = m := by
  constructor
  · intro h
    have hlen := congrArg List.length h
    have hle' := hp.length_le
    rw [List.length_append, List.length_append] at hlen
    exact List.append_inj h (by omega)
  · rintro ⟨rfl, rfl⟩
    rfl

/-! ## The system -/

structure Invariant (reserved : Finset Fd) (s : State) : Prop where
  lists : KeyedTable.Lists reserved s.server.clients s.server.openFds
  inj : ∀ a ∈ s.server.clients, ∀ b ∈ s.server.clients, s.conn a = s.conn b → a = b
  issued : ∀ fd ∈ s.server.clients, s.conn fd < s.accepted
  present : ∀ r, Room.present r s.log = true ↔ ∃ fd ∈ s.server.clients, s.conn fd = r
  spoken : ∀ c, Room.spoken c s.log = (s.up c).received
  short : ∀ r, (s.down r).written.length ≤ (Room.transcript r s.log).length
  noNulUp : ∀ c, (0 : Byte) ∉ (s.up c).written
  noNulDown : ∀ r, (0 : Byte) ∉ (s.down r).written
  shown : ∀ r, s.shown r = (s.down r).received

theorem invariant_initial : Invariant reserved (initial reserved) where
  lists := initial_lists reserved
  inj a ha := by cases ha
  issued fd hfd := by cases hfd
  present r := by simp [initial]
  spoken c := rfl
  short r := le_rfl
  noNulUp c := List.not_mem_nil
  noNulDown r := List.not_mem_nil
  shown r := rfl

/-- All that has been sent has come over whole. -/
def Complete (s : State) : Prop := ∀ r, (s.down r).written = Room.transcript r s.log

/-- A round writes what it brings, and the entry in the log is what it should have brought. -/
theorem Round.written {conn : Fd → Conn} {taken : Fd → ℕ} {clients : List Fd} {fd : Fd}
    {msg : List Byte} {down : Conn → Stream Byte} {log : List (Room.Entry Conn Byte)}
    {e : Room.Entry Conn Byte}
    (h : Round conn taken clients fd msg fun r => (e.hear r (Room.present r log)).2)
    (hshort : ∀ r, (down r).written.length ≤ (Room.transcript r log).length) :
    (∀ r, ((broadcast fd clients msg).foldl (deliver conn taken) down r).written.length ≤
        (Room.transcript r (log ++ [e])).length) ∧
      ((∀ r, ((broadcast fd clients msg).foldl (deliver conn taken) down r).written =
          Room.transcript r (log ++ [e])) ↔
        (∀ r, (down r).written = Room.transcript r log) ∧
          ∀ x ∈ broadcast fd clients msg, x.2.length ≤ taken x.1) := by
  simp only [deliver_foldl, Stream.written_write, Room.transcript_concat]
  refine ⟨fun r => ?_, ?_⟩
  · rw [List.length_append, List.length_append]
    exact Nat.add_le_add (hshort r) (h.brings r).length_le
  · rw [← h.whole_iff, ← forall_and]
    exact forall_congr' fun r => append_eq_iff (hshort r) (h.brings r)

theorem brought_noNul {conn : Fd → Conn} {taken : Fd → ℕ} {clients : List Fd} {fd : Fd}
    {msg : List Byte} (h : (0 : Byte) ∉ msg) (r : Conn) :
    (0 : Byte) ∉ brought conn taken (broadcast fd clients msg) r := by
  intro hmem
  obtain ⟨x, hx, hmem⟩ := List.mem_flatMap.mp hmem
  obtain ⟨fd', -, rfl⟩ := List.mem_map.mp hx
  split_ifs at hmem
  · exact h (List.mem_of_mem_take hmem)
  · cases hmem

theorem joined_noNul (fd : Fd) : (0 : Byte) ∉ joined fd := by
  apply snprintf_noNul
  simp only [List.mem_append, not_or]
  exact ⟨⟨by decide, decimal_noNul fd⟩, by decide⟩

/-- What is said in the round of a chunk. -/
theorem Invariant.said (h : Invariant reserved s) {fd : Fd}
    (hfd : fd ∈ s.server.clients) (taken : Fd → ℕ) (chunk : List Byte) :
    Round s.conn taken s.server.clients fd chunk fun r =>
      ((Room.Entry.said (s.conn fd) chunk).hear r (Room.present r s.log)).2 where
  nodup := h.lists.nodup
  inj := h.inj
  hears r := by
    rintro ⟨fd', hmem, hne, hr⟩
    have hpresent := (h.present r).mpr ⟨fd', hmem, hr⟩
    have hother : s.conn fd ≠ r := fun hsame =>
      hne (h.inj fd' hmem fd hfd (hr.trans hsame.symm))
    exact if_pos ⟨hpresent, hother⟩
  silent r hr := by
    refine if_neg ?_
    rintro ⟨hpresent, hother⟩
    obtain ⟨fd', hmem, hr'⟩ := (h.present r).mp hpresent
    refine hr ⟨fd', hmem, ?_, hr'⟩
    rintro rfl
    exact hother hr'

/-- What the others hear of a newcomer. -/
theorem Invariant.newcomer (h : Invariant reserved s) {fd : Fd} (hfd : fd ∉ s.server.clients)
    (taken : Fd → ℕ) (notice : List Byte) :
    Round (Function.update s.conn fd s.accepted) taken (s.server.clients ++ [fd]) fd notice fun r =>
      ((Room.Entry.joined s.accepted notice).hear r (Room.present r s.log)).2 := by
  have hold : ∀ a ∈ s.server.clients, Function.update s.conn fd s.accepted a = s.conn a := by
    intro a ha
    refine Function.update_of_ne ?_ _ _
    rintro rfl
    exact hfd ha
  have hnew : ∀ a ∈ s.server.clients, s.conn a ≠ s.accepted := fun a ha =>
    Nat.ne_of_lt (h.issued a ha)
  refine ⟨?_, ?_, fun r => ?_, fun r hr => ?_⟩
  · rw [← List.concat_eq_append]
    exact List.Nodup.concat hfd h.lists.nodup
  · intro a ha b hb hab
    rcases List.mem_append.mp ha with ha' | ha' <;> rcases List.mem_append.mp hb with hb' | hb'
    · rw [hold a ha', hold b hb'] at hab
      exact h.inj a ha' b hb' hab
    · obtain rfl := List.mem_singleton.mp hb'
      rw [hold a ha', Function.update_self] at hab
      exact absurd hab (hnew a ha')
    · obtain rfl := List.mem_singleton.mp ha'
      rw [hold b hb', Function.update_self] at hab
      exact absurd hab.symm (hnew b hb')
    · rw [List.mem_singleton.mp ha', List.mem_singleton.mp hb']
  · rintro ⟨fd', hmem, hne, hr⟩
    have hmem := (List.mem_append.mp hmem).resolve_right fun hm => hne (List.mem_singleton.mp hm)
    rw [hold fd' hmem] at hr
    have hpresent := (h.present r).mpr ⟨fd', hmem, hr⟩
    have hother : s.accepted ≠ r := hr ▸ (hnew fd' hmem).symm
    simp only [Room.Entry.hear, if_neg hother, hpresent, if_true]
  · simp only [Room.Entry.hear]
    split_ifs with hsame hpresent
    · rfl
    · obtain ⟨fd', hmem, hr'⟩ := (h.present r).mp hpresent
      refine absurd ⟨fd', List.mem_append_left _ hmem, ?_, (hold fd' hmem).trans hr'⟩ hr
      rintro rfl
      exact hfd hmem
    · rfl

variable {e : Event}

theorem Invariant.accept (h : Invariant reserved s) {fd : Fd} {taken : Fd → ℕ}
    (he : Enabled reserved s (.accept fd taken)) :
    Invariant reserved (next s (.accept fd taken)) ∧
      (Complete (next s (.accept fd taken)) ↔ Complete s ∧ Whole s (.accept fd taken)) := by
  have hlists := serve_lists (e := .accept fd) h.lists he
  have hfresh : fd ∉ s.server.clients := h.lists.fresh he.1
  have hround := h.newcomer hfresh taken (joined fd)
  obtain ⟨hshort, hcomplete⟩ := hround.written h.short
  refine ⟨⟨hlists, hround.inj, ?_, ?_, ?_, hshort, h.noNulUp, ?_, ?_⟩, hcomplete⟩
  · intro a ha
    by_cases hafd : a = fd
    · subst hafd
      exact (congrArg (· < s.accepted + 1) (Function.update_self ..)).mpr (Nat.lt_succ_self _)
    · have hmem := (List.mem_append.mp ha).resolve_right fun hm => hafd (List.mem_singleton.mp hm)
      exact (congrArg (· < s.accepted + 1) (Function.update_of_ne hafd ..)).mpr
        (Nat.lt_succ_of_lt (h.issued a hmem))
  · intro r
    change Room.present r (s.log ++ [.joined s.accepted (joined fd)]) = true ↔
      ∃ a ∈ s.server.clients ++ [fd], Function.update s.conn fd s.accepted a = r
    have hother : ∀ a ∈ s.server.clients,
        Function.update s.conn fd s.accepted a = s.conn a := fun a ha =>
      Function.update_of_ne (fun (haf : a = fd) => hfresh (haf ▸ ha)) _ _
    rw [Room.present_joined, h.present r]
    constructor
    · rintro (rfl | ⟨a, ha, hconn⟩)
      · exact ⟨fd, List.mem_append_right _ List.mem_cons_self, Function.update_self ..⟩
      · exact ⟨a, List.mem_append_left _ ha, (hother a ha).trans hconn⟩
    · rintro ⟨a, ha, hconn⟩
      rcases List.mem_append.mp ha with ha | ha
      · exact Or.inr ⟨a, ha, (hother a ha).symm.trans hconn⟩
      · obtain rfl := List.mem_singleton.mp ha
        rw [Function.update_self] at hconn
        exact Or.inl hconn
  · intro c
    change Room.spoken c (s.log ++ [.joined s.accepted (joined fd)]) = (s.up c).received
    rw [Room.spoken_joined]
    exact h.spoken c
  · intro r
    change (0 : Byte) ∉ ((broadcast fd (s.server.clients ++ [fd]) (joined fd)).foldl
      (deliver (Function.update s.conn fd s.accepted) taken) s.down r).written
    rw [deliver_foldl, Stream.written_write, List.mem_append, not_or]
    exact ⟨h.noNulDown r, brought_noNul (joined_noNul fd) r⟩
  · intro r
    change s.shown r = ((broadcast fd (s.server.clients ++ [fd]) (joined fd)).foldl
      (deliver (Function.update s.conn fd s.accepted) taken) s.down r).received
    rw [deliver_foldl, Stream.received_write]
    exact h.shown r

theorem Invariant.receive (h : Invariant reserved s) {fd : Fd} {n : ℕ} {taken : Fd → ℕ}
    (he : Enabled reserved s (.receive fd n taken)) :
    Invariant reserved (next s (.receive fd n taken)) ∧
      (Complete (next s (.receive fd n taken)) ↔ Complete s ∧ Whole s (.receive fd n taken)) := by
  have hlists := serve_lists (e := .receive fd (s.chunk fd n)) h.lists he
  have hfd : fd ∈ s.server.clients := (h.lists.mem fd).mpr he.1
  have hround := h.said hfd taken (s.chunk fd n)
  have hchunk : (0 : Byte) ∉ s.chunk fd n := fun hz =>
    h.noNulUp (s.conn fd) (List.mem_append_right _ (List.mem_of_mem_take hz))
  obtain ⟨hshort, hcomplete⟩ := hround.written h.short
  refine ⟨⟨hlists, h.inj, h.issued, ?_, ?_, hshort, ?_, ?_, ?_⟩, hcomplete⟩
  · intro r
    change Room.present r (s.log ++ [.said (s.conn fd) (s.chunk fd n)]) = true ↔ _
    rw [Room.present_said]
    exact h.present r
  · intro c
    change Room.spoken c (s.log ++ [.said (s.conn fd) (s.chunk fd n)]) =
      (Function.update s.up (s.conn fd) ((s.up (s.conn fd)).read n) c).received
    rw [Room.spoken_said, h.spoken c]
    by_cases hc : s.conn fd = c
    · subst hc
      rw [Function.update_self, if_pos rfl, Stream.received_read]
      rfl
    · rw [Function.update_of_ne (Ne.symm hc), if_neg hc, List.append_nil]
  · intro c
    change (0 : Byte) ∉ (Function.update s.up (s.conn fd) ((s.up (s.conn fd)).read n) c).written
    by_cases hc : s.conn fd = c
    · subst hc
      rw [Function.update_self, Stream.written_read]
      exact h.noNulUp _
    · rw [Function.update_of_ne (Ne.symm hc)]
      exact h.noNulUp c
  · intro r
    change (0 : Byte) ∉ ((broadcast fd s.server.clients (s.chunk fd n)).foldl
      (deliver s.conn taken) s.down r).written
    rw [deliver_foldl, Stream.written_write, List.mem_append, not_or]
    exact ⟨h.noNulDown r, brought_noNul hchunk r⟩
  · intro r
    change s.shown r = ((broadcast fd s.server.clients (s.chunk fd n)).foldl
      (deliver s.conn taken) s.down r).received
    rw [deliver_foldl, Stream.received_write]
    exact h.shown r

theorem Invariant.hangup (h : Invariant reserved s) {fd : Fd}
    (he : Enabled reserved s (.hangup fd)) :
    Invariant reserved (next s (.hangup fd)) ∧ (Complete (next s (.hangup fd)) ↔ Complete s) := by
  have hlists := serve_lists (e := .hangup fd) h.lists he
  have hfd : fd ∈ s.server.clients := (h.lists.mem fd).mpr he
  have hd : KeyedTable.Distinct id s.server.clients := by
    rw [KeyedTable.Distinct, List.map_id]
    exact h.lists.nodup
  have hmem : ∀ a, a ∈ (next s (.hangup fd)).server.clients ↔ a ≠ fd ∧ a ∈ s.server.clients := by
    intro a
    have hkeys := KeyedTable.mem_keys_remove (k := fd) hd a
    rwa [List.map_id, List.map_id] at hkeys
  refine ⟨⟨hlists, fun a ha b hb => ?_, fun a ha => ?_, fun r => ?_, fun c => ?_, fun r => ?_,
    h.noNulUp, h.noNulDown, h.shown⟩, forall_congr' fun r => ?_⟩
  · exact h.inj a ((hmem a).mp ha).2 b ((hmem b).mp hb).2
  · exact h.issued a ((hmem a).mp ha).2
  · change Room.present r (s.log ++ [.left (s.conn fd)]) = true ↔
      ∃ a ∈ (next s (.hangup fd)).server.clients, s.conn a = r
    simp only [hmem, Room.present_left, h.present r]
    constructor
    · rintro ⟨hne, a, ha, hconn⟩
      refine ⟨a, ⟨?_, ha⟩, hconn⟩
      rintro rfl
      exact hne hconn
    · rintro ⟨a, ⟨hne, ha⟩, hconn⟩
      exact ⟨fun hsame => hne (h.inj a ha fd hfd (hconn.trans hsame.symm)), a, ha, hconn⟩
  · change Room.spoken c (s.log ++ [.left (s.conn fd)]) = (s.up c).received
    rw [Room.spoken_left]
    exact h.spoken c
  · change (s.down r).written.length ≤ (Room.transcript r (s.log ++ [.left (s.conn fd)])).length
    rw [Room.transcript_left]
    exact h.short r
  · change (s.down r).written = Room.transcript r (s.log ++ [.left (s.conn fd)]) ↔ _
    rw [Room.transcript_left]

theorem Invariant.input (h : Invariant reserved s) (c : Conn) (line : List Byte) :
    Invariant reserved (next s (.input c line)) := by
  refine ⟨h.lists, h.inj, h.issued, h.present, fun c' => ?_, h.short, fun c' => ?_, h.noNulDown,
    h.shown⟩
  · change Room.spoken c' s.log =
      (Function.update s.up c ((s.up c).write (cstr line)) c').received
    rw [h.spoken c']
    by_cases hc : c' = c
    · subst hc
      rw [Function.update_self, Stream.received_write]
    · rw [Function.update_of_ne hc]
  · change (0 : Byte) ∉ (Function.update s.up c ((s.up c).write (cstr line)) c').written
    by_cases hc : c' = c
    · subst hc
      rw [Function.update_self, Stream.written_write, List.mem_append, not_or]
      exact ⟨h.noNulUp c', cstr_noNul line⟩
    · rw [Function.update_of_ne hc]
      exact h.noNulUp c'

theorem Invariant.print (h : Invariant reserved s) (c : Conn) (n : ℕ) :
    Invariant reserved (next s (.print c n)) ∧ (Complete (next s (.print c n)) ↔ Complete s) := by
  have hwritten : ∀ r, ((next s (.print c n)).down r).written = (s.down r).written := by
    intro r
    change (Function.update s.down c ((s.down c).read n) r).written = _
    by_cases hr : r = c
    · subst hr
      rw [Function.update_self, Stream.written_read]
    · rw [Function.update_of_ne hr]
  have hchunk : (0 : Byte) ∉ (s.down c).pending.take n := fun hz =>
    h.noNulDown c (List.mem_append_right _ (List.mem_of_mem_take hz))
  refine ⟨⟨h.lists, h.inj, h.issued, h.present, h.spoken, fun r => ?_, h.noNulUp, fun r => ?_,
    fun r => ?_⟩, forall_congr' fun r => ?_⟩
  · rw [hwritten]
    exact h.short r
  · rw [hwritten]
    exact h.noNulDown r
  · change Function.update s.shown c _ r = (Function.update s.down c ((s.down c).read n) r).received
    by_cases hr : r = c
    · subst hr
      rw [Function.update_self, Function.update_self, Stream.received_read, h.shown r,
        cstr_of_noNul hchunk]
    · rw [Function.update_of_ne hr, Function.update_of_ne hr]
      exact h.shown r
  · rw [hwritten]
    rfl

theorem invariant_next (h : Invariant reserved s) (he : Enabled reserved s e) :
    Invariant reserved (next s e) ∧ (Complete (next s e) ↔ Complete s ∧ Whole s e) := by
  have hkeep {p : Prop} (hp : p ↔ Complete s) : p ↔ Complete s ∧ True := by rwa [and_true]
  cases e with
  | accept fd taken => exact h.accept he
  | receive fd n taken => exact h.receive he
  | hangup fd => exact (h.hangup he).imp_right hkeep
  | input c line => exact ⟨h.input c line, hkeep Iff.rfl⟩
  | endOfInput c =>
    exact ⟨⟨h.lists, h.inj, h.issued, h.present, h.spoken, h.short, h.noNulUp, h.noNulDown,
      h.shown⟩, hkeep Iff.rfl⟩
  | print c n => exact (h.print c n).imp_right hkeep

theorem invariant_run {es : List Event} (h : (machine reserved).Valid es) :
    Invariant reserved ((machine reserved).run es) :=
  Machine.invariant (I := Invariant reserved) invariant_initial
    (fun _ _ hs he => (invariant_next hs he).1) h

def Event.typed (c : Conn) : Event → List Byte
  | .input c' line => if c' = c then cstr line else []
  | _ => []

/-- What a client has been given to send. -/
def typed (c : Conn) (es : List Event) : List Byte := es.flatMap (Event.typed c)

theorem written_typed (reserved : Finset Fd) (es : List Event) (c : Conn) :
    (((machine reserved).run es).up c).written = typed c es := by
  induction es using List.reverseRecOn with
  | nil => rfl
  | append_singleton es e ih =>
    rw [Machine.run_concat, typed, List.flatMap_append, List.flatMap_singleton]
    change _ = typed c es ++ e.typed c
    rw [← ih]
    generalize (machine reserved).run es = s
    cases e with
    | input c' line =>
      change (Function.update s.up c' ((s.up c').write (cstr line)) c).written = _
      by_cases hc : c' = c
      · subst hc
        rw [Function.update_self, Stream.written_write, Event.typed, if_pos rfl]
      · rw [Function.update_of_ne (Ne.symm hc), Event.typed, if_neg hc, List.append_nil]
    | receive fd n taken =>
      change (Function.update s.up (s.conn fd) ((s.up (s.conn fd)).read n) c).written =
        (s.up c).written ++ []
      rw [List.append_nil]
      by_cases hc : s.conn fd = c
      · subst hc
        rw [Function.update_self, Stream.written_read]
      · rw [Function.update_of_ne (Ne.symm hc)]
    | _ => exact (List.append_nil _).symm

/-- What the server has taken from a client, and logged as said by it, is a first part of what was
typed there; a client has shown exactly what it has received; and its connection has been sent no
more than the transcript of the log for it, and exactly that as long as every `send` was whole. -/
structure Relayed (reserved : Finset Fd) (es : List Event) (s : State) : Prop where
  typed : ∀ c, Room.spoken c s.log <+: typed c es
  shown : ∀ r, s.shown r = (s.down r).received
  bounded : ∀ r, (s.down r).written.length ≤ (Room.transcript r s.log).length
  complete : (∀ r, (s.down r).written = Room.transcript r s.log) ↔
    (machine reserved).Along Whole es

theorem chat_relayed (reserved : Finset Fd) {es : List Event} (h : (machine reserved).Valid es) :
    Relayed reserved es ((machine reserved).run es) := by
  have hinv := invariant_run h
  refine ⟨fun c => ?_, hinv.shown, hinv.short, ?_⟩
  · rw [hinv.spoken c, ← written_typed reserved es c]
    exact Stream.received_prefix _
  · apply (Machine.along_iff (P := Complete) _ _ h).symm
    · intro r
      rfl
    · intro es e hv he
      exact (invariant_next (invariant_run hv) he).2

/-- The second client is told of the third one and misses the end of what the first one says. -/
def shortRun : List Event :=
  [.accept 4 (fun _ => 100), .accept 5 (fun _ => 100), .accept 6 (fun _ => 100),
    .input 0 (ascii "good morning\n"), .receive 4 13 (fun fd => if fd = 5 then 4 else 100),
    .print 1 1000, .endOfInput 0, .hangup 4]

theorem chat_relayed_short :
    Relayed {3} shortRun ((machine {3}).run shortRun) ∧
      ((machine {3}).run shortRun).shown 1 = ascii "[Server] New client joined (6)\ngood" :=
  ⟨chat_relayed {3} (by decide +kernel), by decide +kernel⟩

end ChatSystem
