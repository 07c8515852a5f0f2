import LinuxLabs.AsyncLoadBalancer
import LinuxLabs.CommandChatServer
import LinuxLabs.EpollChatServer
import LinuxLabs.RoomChatTable

/-! # Input left behind by one read a notification
The servers without TLS make one `recv` or `read` for each report of an edge-triggered
descriptor. What a longer burst leaves in the socket buffer is read only when the client
sends again. -/
namespace StrandedInput

open Execution KeyedTable EventLoop

/-! ## The room chat server's loop -/

section Room

open RoomChatServer RoomChatTable

def roomAction : Event → Action Fd
  | .accept fd => .accept [fd]
  | .acceptFailed => .refuse
  | .hangup fd => .hangup fd [fd]
  | .receive fd buf => .receive fd buf.length (commandOf buf = .quit)

theorem effect_openFds {reserved : Finset Fd} {s : Server} (h : Consistent reserved s) {fd : Fd}
    (hf : fd ∈ s.openFds ∧ fd ∉ reserved) (cmd : Command) :
    (effect s fd cmd).openFds =
      if decide (cmd = .quit) = true then s.openFds.erase fd else s.openFds := by
  cases cmd with
  | quit => exact removeClient_openFds ((h.opened fd).mpr hf)
  | nick | join | leave | list | unknown | chat => simp [effect, storeClient]

def roomService (reserved : Finset Fd) : Service Fd Server Event where
  machine := machine reserved
  cap := bufSize - 1
  maxEvents := maxEvents
  opened s := Unreserved s.openFds reserved
  action := roomAction
  Inv := Consistent reserved
  start := initial_consistent reserved
  keep _ _ h he := serve_consistent h he
  opens s e h he := by
    cases e with
    | accept fd => exact opens_accept fun hm => he.1 (h.reserve hm)
    | acceptFailed => exact fun _ => Iff.rfl
    | hangup fd =>
      simp only [machine, serve, removeClient_openFds ((h.opened fd).mpr he)]
      exact opens_hangup
    | receive fd buf =>
      simp only [machine, serve, receive_server h he.1, effect_openFds h he.1]
      exact opens_receive buf.length _

end Room

/-! ## The asynchronous load balancer's loop -/

section Balancer

open AsyncLoadBalancer

def source : Ready → Option Fd
  | .listener => none
  | .data fd _ => some fd

/-- A session's two descriptors are registered together and closed together. -/
def balancerAction (s : State) : Event → Action Fd
  | .poll ready => .poll (ready.map source)
  | .accept client backend connected => if connected then .accept [client, backend] else .refuse
  | .serve r =>
    match s.batch with
    | .data fd _ :: _ =>
      match r with
      | .data bytes => .receive fd bytes.length false
      | .failed => .hangup fd [fd, peer s fd]
    | _ => .refuse

def InSession (s : State) (fd : Fd) : Prop := ∃ x, s.owner fd = some (.session x)

/-- No descriptor is reported twice in a batch. -/
def OnceReported (s : State) : Prop := (s.batch.map (Ready.fd s.listenFd)).Nodup

theorem source_notMem {listenFd fd : Fd} {rest : List Ready}
    (h : fd ∉ rest.map (Ready.fd listenFd)) : some fd ∉ rest.map source := by
  intro hm
  obtain ⟨r, hr, hs⟩ := List.mem_map.mp hm
  cases r with
  | listener => cases hs
  | data g y =>
    obtain rfl : g = fd := Option.some.inj hs
    exact h (List.mem_map.mpr ⟨_, hr, rfl⟩)

theorem balancer_serves {s : State} {e : Event}
    (hn : OnceReported s) (he : Enabled s e) :
    (balancerAction s e).Serves (s.batch.map source) ((next s e).batch.map source) := by
  cases e with
  | poll ready =>
    obtain ⟨hb, -⟩ := he
    exact ⟨by rw [hb, List.map_nil], rfl⟩
  | accept client backend connected =>
    obtain ⟨rest, hb, -⟩ := enabled_accept he
    cases connected <;> simp [balancerAction, next, hb, Action.Serves, source]
  | serve r =>
    obtain ⟨fd, x, rest, hb, -⟩ := enabled_serve he
    rw [OnceReported, hb, List.map_cons] at hn
    have hnot := source_notMem (List.nodup_cons.mp hn).1
    cases r with
    | data bytes =>
      simp only [balancerAction, next, hb]
      exact ⟨rfl, hnot⟩
    | failed =>
      simp only [balancerAction, next, hb]
      rfl

theorem balancer_opens {s : State} {e : Event} (he : Enabled s e) :
    (balancerAction s e).Opens (InSession s) (InSession (next s e)) := by
  cases e with
  | poll ready => exact fun _ => Iff.rfl
  | accept client backend connected =>
    cases connected with
    | false => exact fun _ => Iff.rfl
    | true =>
      intro fd
      simp only [InSession, owner_accept, List.mem_cons, List.not_mem_nil, or_false]
      split
      · next hfd => exact iff_of_true ⟨_, rfl⟩ (Or.inr hfd)
      · next hfd => simp [hfd]
  | serve r =>
    obtain ⟨fd, x, rest, hb, -⟩ := enabled_serve he
    cases r with
    | data bytes =>
      simp only [balancerAction, next, hb]
      exact fun g => (and_iff_left fun h => Bool.false_ne_true h.1).symm
    | failed =>
      simp only [balancerAction, next, hb]
      refine ⟨List.mem_cons_self, fun g => ?_⟩
      simp only [InSession, owner_closed, List.mem_cons, List.not_mem_nil, or_false]
      split
      · next hg => simp [hg]
      · next hg => simp [hg]

theorem step_onceReported {s : State} {e : Event} (hn : OnceReported s) (he : Enabled s e) :
    OnceReported (next s e) := by
  have htail : (s.batch.tail.map (Ready.fd s.listenFd)).Nodup := by
    rw [List.map_tail]
    exact List.Nodup.tail hn
  cases e with
  | poll ready => exact he.2.2.1
  | accept client backend connected => cases connected <;> exact htail
  | serve r =>
    obtain ⟨fd, x, rest, hb, -⟩ := enabled_serve he
    rw [hb, List.tail_cons] at htail
    cases r <;> simpa [OnceReported, next, hb] using htail

def balancerLoop (listenFd epfd : Fd) : Loop Fd State Event where
  machine := machine listenFd epfd
  cap := bufferSize
  batch s := s.batch.map source
  opened := InSession
  action := balancerAction
  Inv := OnceReported
  start := List.nodup_nil
  keep _ _ hn he := step_onceReported hn he
  serves _ _ hn he := balancer_serves hn he
  opens _ _ _ he := balancer_opens he

end Balancer

/-! ## All four servers -/

/-- Labs 13, 14, 17 and 18: what decides is whether each read on a connection that stays open
finds more than the buffer takes and nothing further has been reported. -/
theorem nothing_stranded_iff_reads_keep_up (listenFd epfd : ℕ) (reserved : Finset ℕ) :
    (balancerLoop listenFd epfd).NothingStranded ∧
    (EpollChatServer.service reserved).loop.NothingStranded ∧
    (CommandChatServer.service reserved).loop.NothingStranded ∧
    (roomService reserved).loop.NothingStranded :=
  ⟨Loop.nothing_stranded _, Loop.nothing_stranded _, Loop.nothing_stranded _,
    Loop.nothing_stranded _⟩

section Burst

open CString RoomChatServer

/-- The run of the room server in which `n` bytes come at once on its only connection. -/
private abbrev oneRead (n : ℕ) (buf : List Byte) : List (Step Fd (Turn Fd Event)) :=
  [.code (.poll [none]) fun _ => 0, .code (.serve (.accept 5)) fun _ => 0, .arrive 5 n,
    .code (.poll [some 5]) fun _ => 0, .code (.serve (.receive 5 buf)) fun _ => 0]

private theorem one_read (n : ℕ) (buf : List Byte) (hpos : 1 ≤ buf.length)
    (hlen : buf.length = min 1023 n) (hc : commandOf buf = .chat) :
    let L := (roomService {0, 1, 2, 3, 4}).loop
    let t := L.net.run (oneRead n buf)
    L.net.Valid (oneRead n buf) ∧ L.batch t.server = [] ∧ L.opened t.server 5 ∧
      t.kernel.unread 5 = n - buf.length ∧ t.kernel.notified 5 = false := by
  intro L t
  have h5 : Unreserved (Server.openFds ⟨[⟨5, .empty, .empty⟩], {5, 0, 1, 2, 3, 4}⟩)
      {0, 1, 2, 3, 4} 5 := by decide
  have hopen : (machine {0, 1, 2, 3, 4}).next ⟨[⟨5, .empty, .empty⟩], {5, 0, 1, 2, 3, 4}⟩
      (.receive 5 buf) = ⟨[⟨5, .empty, .empty⟩], {5, 0, 1, 2, 3, 4}⟩ := by
    have hfind : findClientByFd ⟨[⟨5, .empty, .empty⟩], {5, 0, 1, 2, 3, 4}⟩ 5 =
        some ⟨5, .empty, .empty⟩ := rfl
    change (receive _ 5 buf).1 = _
    rw [receive_eq_perform hfind, hc]
    rfl
  refine ⟨⟨⟨⟨rfl, List.nodup_singleton _, by decide, fun i hi => ?_⟩, fun i hi => ?_⟩,
    ⟨⟨⟨by decide, by decide⟩, [], none, rfl, rfl⟩, trivial⟩, trivial,
    ⟨⟨rfl, List.nodup_singleton _, by decide, fun i hi => ?_⟩, fun i hi => ?_⟩,
    ⟨⟨⟨h5, hpos, ?_⟩, [], some 5, rfl, rfl⟩, ?_⟩, trivial⟩, rfl, ?_, ?_, rfl⟩
  · cases hi
  · cases hi
  · obtain rfl := List.mem_singleton.mp hi
    exact h5
  · obtain rfl := List.mem_singleton.mp hi
    rfl
  · exact hlen.trans_le (Nat.min_le_left 1023 n)
  · change buf.length = min 1023 (0 + n)
    omega
  · rw [← hopen] at h5
    exact h5
  · change 0 + n - buf.length = n - buf.length
    omega

/-- Of 1500 bytes that a client of the room server sends at once, the one `recv` takes 1023,
and the server waits with 477 unread and no report to come. -/
theorem burst_stranded :
    let L := (roomService {0, 1, 2, 3, 4}).loop
    let es := [.code (.poll [none]) fun _ => 0, .code (.serve (.accept 5)) fun _ => 0,
      .arrive 5 1500, .code (.poll [some 5]) fun _ => 0,
      .code (.serve (.receive 5 (List.replicate 1023 97))) fun _ => 0]
    L.net.Valid es ∧ (L.net.run es).kernel.unread 5 = 477 ∧ ¬ L.Prompt (L.net.run es) := by
  intro L es
  have hlen : (List.replicate 1023 (97 : Byte)).length = 1023 := List.length_replicate
  obtain ⟨hv, hb, ho, hu, hn⟩ :=
    one_read 1500 (List.replicate 1023 97) (by omega) (by omega) (by simp [commandOf, slash])
  rw [hlen] at hu
  refine ⟨hv, hu, fun hp => ?_⟩
  rcases hp hb 5 ho with hs | hs
  · exact absurd (hu.symm.trans hs) (by decide)
  · exact Bool.false_ne_true (hn.symm.trans hs)

/-- A line that fits is read whole. -/
theorem nothing_stranded_iff_reads_keep_up_line :
    let L := (roomService {0, 1, 2, 3, 4}).loop
    let es := [.code (.poll [none]) fun _ => 0, .code (.serve (.accept 5)) fun _ => 0,
      .arrive 5 3, .code (.poll [some 5]) fun _ => 0,
      .code (.serve (.receive 5 (ascii "hi\n"))) fun _ => 0]
    L.net.Valid es ∧ L.net.Along L.KeepsUp es ∧ L.Prompt (L.net.run es) ∧ L.Reads es := by
  intro L es
  have hv : L.net.Valid es := (one_read 3 (ascii "hi\n") (by decide) (by decide) (by decide)).1
  have hk : L.net.Along L.KeepsUp es :=
    ⟨trivial, trivial, trivial, trivial, fun _ _ => Or.inl (by decide), trivial⟩
  exact ⟨hv, hk, ((nothing_stranded_iff_reads_keep_up 3 4 {0, 1, 2, 3, 4}).2.2.2 es hv).2 hk⟩

end Burst

end StrandedInput
