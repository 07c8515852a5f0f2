import LinuxLabs.EdgeTriggered
import LinuxLabs.TlsCalls

/-! # Notifications of the TLS chat server (lab 16)
Connections are registered edge-triggered. The server is run next to a kernel that keeps
what each connection has received and not yet had read, and that reports a connection when
bytes arrive, when its full send buffer drains, and when it is registered with room there. -/
namespace TlsNotifications

open Execution EdgeTriggered TlsChatServer TlsConnections TlsCalls

structure Net where
  server : State
  kernel : Readiness ConnId
  full : ConnId → Bool

def initialNet (listenFd : Fd) (reserved : Finset Fd) : Net :=
  ⟨initial listenFd reserved, ⟨fun _ => 0, fun _ => false⟩, fun _ => false⟩

/-- A step of the server, whose TLS call takes `taken` of the bytes its connection received;
bytes that arrive, also before the connection is accepted; or a send buffer with room again. -/
inductive Step where
  | code (e : Event) (taken : ℕ)
  | arrive (j : ConnId) (n : ℕ)
  | writable (j : ConnId)
  deriving DecidableEq

/-- The connection of the call the thread is about to make. -/
def calling (s : State) : Option ConnId :=
  match s.pos with
  | .handshaking h | .reading h => some (s.nodes h.c).id
  | .writing _ _ cur _ => some (s.nodes cur).id
  | _ => none

def Ready.reportedFor : Ready → Option ConnId
  | .listener => none
  | .conn _ id => some id

def WantsRead : Event → Prop
  | .sslAccept .wantRead | .sslRead .wantRead | .sslWrite .wantRead => True
  | _ => False

def WantsWrite : Event → Prop
  | .sslAccept .wantWrite | .sslRead .wantWrite | .sslWrite .wantWrite => True
  | _ => False

instance : DecidablePred WantsRead := by
  intro e
  unfold WantsRead
  split <;> infer_instance

instance : DecidablePred WantsWrite := by
  intro e
  unfold WantsWrite
  split <;> infer_instance

/-- What the code's step does to the kernel's side. -/
def observe (t : Net) (e : Event) (taken : ℕ) : Readiness ConnId :=
  match e with
  | .poll ready => t.kernel.deliver (ready.filterMap Ready.reportedFor)
  | .accept _ _ => t.kernel.notify t.server.accepted
  | .sslAccept _ | .sslRead _ | .sslWrite _ =>
    match calling t.server with
    | some j => t.kernel.consume j taken
    | none => t.kernel
  | .advance | .acceptFailed => t.kernel

/-- Only what is notified is reported, and a call wants to read only when it has taken all
there is. -/
def StepEnabled (t : Net) : Step → Prop
  | .code e taken => Enabled t.server e ∧
    (∀ j ∈ calling t.server, taken ≤ t.kernel.unread j ∧
      (WantsRead e → taken = t.kernel.unread j)) ∧
    match e with
    | .poll ready => ∀ j ∈ ready.filterMap Ready.reportedFor, t.kernel.notified j = true
    | _ => True
  | .arrive _ n => 0 < n
  | .writable j => t.full j = true

def netNext (t : Net) : Step → Net
  | .code e taken =>
    { server := next t.server e
      kernel := observe t e taken
      full :=
        match calling t.server with
        | some j => if WantsWrite e then Function.update t.full j true else t.full
        | none => t.full }
  | .arrive j n => { t with kernel := t.kernel.arrive j n }
  | .writable j => { t with kernel := t.kernel.notify j, full := Function.update t.full j false }

def net (listenFd : Fd) (reserved : Finset Fd) : Machine Net Step :=
  ⟨initialNet listenFd reserved, StepEnabled, netNext⟩

instance (t : Net) (e : Step) : Decidable (StepEnabled t e) := by
  casesm* Step, Event <;> simp only [StepEnabled] <;> infer_instance

instance (listenFd : Fd) (reserved : Finset Fd) (t : Net) (e : Step) :
    Decidable ((net listenFd reserved).Enabled t e) := inferInstanceAs (Decidable (StepEnabled t e))

/-! ## The connections the server has yet to see to -/

def Watched (s : State) (j : ConnId) : Prop :=
  ∃ a ∈ s.live, (s.nodes a).id = j ∧ (s.nodes a).state = .established

def Serving (s : State) (j : ConnId) : Pos → Prop
  | .finding _ id _ _ => id = j
  | .reading h | .broadcasting h _ _ | .writing h _ _ _ => (s.nodes h.c).id = j
  | _ => False

/-- An event for `j` is in the batch or being handled. -/
def Busy (s : State) (j : ConnId) : Prop := (∃ fd, .conn fd j ∈ s.batch) ∨ Serving s j s.pos

/-- The established connections that wait for their next event have nothing unread, or a
notification on its way. -/
def Unstranded (t : Net) : Prop := t.kernel.Covered (Watched t.server) (Busy t.server)

/-- A handshake that completes, and a read that cannot go on for want of room to write,
leave nothing unread unless a further notification is on its way. -/
def LeavesNothing (t : Net) : Step → Prop
  | .code (.sslAccept .done) taken | .code (.sslRead .wantWrite) taken =>
    ∀ j ∈ calling t.server, t.kernel.unread j = taken ∨ t.kernel.notified j = true
  | _ => True

/-- The step after which the server leaves the established connection `j` to its next event. -/
def Released (s : State) (j : ConnId) : Event → Prop
  | .sslAccept .done | .sslRead .wantRead | .sslRead .wantWrite => calling s = some j
  | _ => False

variable {s : State} {l : List Addr} {h : Handler} {j : ConnId} {e : Event}

theorem watched_setState {a : Addr} {st : ConnState} {p : Pos}
    (hw : Watched ((s.setState a st).goto p) j) :
    Watched s j ∨ (s.nodes a).id = j ∧ st = .established := by
  obtain ⟨b, hb, hid, hst⟩ := hw
  change ((s.setState a st).nodes b).id = j at hid
  change ((s.setState a st).nodes b).state = _ at hst
  rw [setState_id] at hid
  rw [setState_state] at hst
  split at hst
  · next heq =>
    subst heq
    exact Or.inr ⟨hid, hst⟩
  · exact Or.inl ⟨b, hb, hid, hst⟩

/-- Closing a connection adds none to those watched. -/
theorem watched_closed {a : Addr} {p : Pos}
    (hw : Watched ((s.setState a .closed).goto p) j) : Watched s j :=
  (watched_setState hw).resolve_right fun hc => nomatch hc.2

theorem finding_watched (hi : Invariant s l) {fd : Fd} {id : ConnId} {prev c : Option Addr}
    (hpos : s.pos = .finding fd id prev c) (hw : Watched (advance s) j)
    (hb : ¬ Busy (advance s) j) : Watched s j ∧ ¬ Busy s j := by
  obtain ⟨hl, ha⟩ := hi
  rw [hpos] at ha
  obtain ⟨hreg, _, l₁, l₂, rfl, _, hc, b, hbl, _⟩ := ha
  cases l₂ with
  | nil => cases hbl
  | cons c l₂ =>
    subst hc
    have hcl : c ∈ l₁ ++ c :: l₂ := List.mem_append_right _ List.mem_cons_self
    simp only [advance, hpos, List.head?_cons] at hw hb
    split at hw
    · next hne =>
      rw [if_pos hne] at hb
      refine ⟨hw, fun hbusy => hb ?_⟩
      rcases hbusy with hm | hs
      · exact Or.inl hm
      · rw [hpos] at hs
        exact Or.inr hs
    · next hfd =>
      rw [if_neg hfd] at hb
      -- the node found is the one of the event, and its state decides who sees to it
      have hid : (s.nodes c).id = id := by
        have hc := (hl.registered _ _).mpr ⟨c, hcl, not_not.mp hfd, rfl⟩
        exact Option.some.inj (hc.symm.trans hreg)
      have hown (hst : (s.nodes c).state ≠ .established) (hw : Watched s j) : id ≠ j := by
        rintro rfl
        obtain ⟨a, ha, haid, hast⟩ := hw
        obtain rfl := hl.ids a ((hl.live a).mp ha) c hcl (haid.trans hid.symm)
        exact hst hast
      cases hst : (s.nodes c).state with
      | established =>
        simp only [hst] at hw hb
        refine ⟨hw, fun hbusy => hb ?_⟩
        rcases hbusy with hm | hs
        · exact Or.inl hm
        · rw [hpos] at hs
          exact Or.inr (hid.trans hs)
      | handshake | closed =>
        simp only [hst] at hw hb
        refine ⟨hw, fun hbusy => ?_⟩
        rcases hbusy with hm | hs
        · exact hb (Or.inl hm)
        · rw [hpos] at hs
          exact hown (by simp [hst]) hw hs

theorem advance_watched (hi : Invariant s l) (he : Enabled s .advance)
    (hw : Watched (advance s) j) (hb : ¬ Busy (advance s) j) : Watched s j ∧ ¬ Busy s j := by
  cases hpos : s.pos with
  | dispatch =>
    have hidle : ¬ Serving s j s.pos := by
      rw [hpos]
      exact id
    cases hbatch : s.batch with
    | nil =>
      simp only [Enabled, hpos] at he
      exact absurd hbatch he
    | cons r rest =>
      cases r with
      | listener =>
        simp only [advance, hpos, hbatch] at hw hb
        refine ⟨hw, fun hbusy => hb (Or.inl ?_)⟩
        obtain ⟨fd, hm⟩ := hbusy.resolve_right hidle
        rw [hbatch] at hm
        exact ⟨fd, (List.mem_cons.mp hm).resolve_left (by simp)⟩
      | conn fd id =>
        simp only [advance, hpos, hbatch] at hw hb
        refine ⟨hw, fun hbusy => hb ?_⟩
        obtain ⟨fd', hm⟩ := hbusy.resolve_right hidle
        rw [hbatch] at hm
        rcases List.mem_cons.mp hm with heq | hm
        · obtain ⟨_, rfl⟩ := Ready.conn.inj heq
          exact Or.inr rfl
        · exact Or.inl ⟨fd', hm⟩
  | finding fd id prev c => exact finding_watched hi hpos hw hb
  | broadcasting h buf cur =>
    have hstill {p : Pos} (hp : Serving s j (.reading h) → Serving s j p)
        (hb : ¬ Busy (s.goto p) j) : ¬ Busy s j := by
      rintro (hm | hs)
      · exact hb (Or.inl hm)
      · rw [hpos] at hs
        exact hb (Or.inr (hp hs))
    cases cur with
    | none =>
      simp only [advance, hpos] at hw hb
      exact ⟨hw, hstill id hb⟩
    | some cur =>
      simp only [advance, hpos] at hw hb
      split at hw
      · next hc =>
        rw [if_pos hc] at hb
        refine ⟨hw, hstill (fun hs => ?_) hb⟩
        unfold offer
        split <;> exact hs
      · next hc =>
        rw [if_neg hc] at hb
        exact ⟨hw, hstill id hb⟩
  | cleanup h =>
    have hidle : ¬ Serving s j s.pos := by
      rw [hpos]
      exact id
    simp only [advance, hpos] at hw hb
    split at hw
    · next hc =>
      rw [if_pos hc] at hb
      refine ⟨?_, fun hbusy => hb (Or.inl (hbusy.resolve_right hidle))⟩
      obtain ⟨a, ha, hid, hst⟩ := hw
      obtain ⟨-, hstate, hident⟩ := removeConnection_nodes
        { s with registered := Function.update s.registered h.fd none } h.c a h.prev
      exact ⟨a, Finset.mem_of_mem_erase ha, hident.symm.trans hid, hstate.symm.trans hst⟩
    · next hc =>
      rw [if_neg hc] at hb
      exact ⟨hw, fun hbusy => hb (Or.inl (hbusy.resolve_right hidle))⟩
  | accepting | handshaking | reading | writing => simp only [Enabled, hpos] at he

/-- A connection that waits for its next event was waiting before, unless it is just left. -/
theorem step_watched (hi : Invariant s l) (he : Enabled s e) (hp : ∀ ready, e ≠ .poll ready)
    (hr : ¬ Released s j e) (hw : Watched (next s e) j) (hb : ¬ Busy (next s e) j) :
    Watched s j ∧ ¬ Busy s j := by
  cases e with
  | poll ready => exact absurd rfl (hp ready)
  | advance => exact advance_watched hi he hw hb
  | accept fd a =>
    obtain ⟨hpos, _, _, hlive⟩ := he
    refine ⟨?_, fun hbusy => hb (Or.inl (hbusy.resolve_right ?_))⟩
    case refine_2 =>
      rw [hpos]
      exact id
    obtain ⟨b, hbl, hid, hst⟩ := hw
    change ((Function.update s.nodes a _) b).id = _ at hid
    change ((Function.update s.nodes a _) b).state = _ at hst
    rw [Function.update_apply] at hid hst
    split at hst
    · cases hst
    · next hne =>
      rw [if_neg hne] at hid
      exact ⟨b, (Finset.mem_insert.mp hbl).resolve_left hne, hid, hst⟩
  | acceptFailed =>
    refine ⟨hw, fun hbusy => hb (Or.inl (hbusy.resolve_right ?_))⟩
    rw [show s.pos = .accepting from he]
    exact id
  | sslAccept r =>
    cases hpos : s.pos with
    | handshaking h =>
      have hidle : ¬ Serving s j s.pos := by
        rw [hpos]
        exact id
      cases r <;> simp only [next, hpos] at hw hb
      case done =>
        refine ⟨(watched_setState (s := s.record _) hw).resolve_right fun hc => hr ?_,
          fun hbusy => hb (Or.inl (hbusy.resolve_right hidle))⟩
        simp only [Released, calling, hpos]
        exact congrArg some hc.1
      case fatal =>
        exact ⟨watched_closed (s := s.record _) hw,
          fun hbusy => hb (Or.inl (hbusy.resolve_right hidle))⟩
      all_goals exact ⟨hw, fun hbusy => hb (Or.inl (hbusy.resolve_right hidle))⟩
    | _ => simp only [Enabled, hpos] at he
  | sslRead r =>
    cases hpos : s.pos with
    | reading h =>
      obtain ⟨hl, ha⟩ := hi
      rw [hpos] at ha
      cases r <;> simp only [next, hpos] at hw hb
      case data buf =>
        refine ⟨hw, fun hbusy => hb ?_⟩
        rcases hbusy with hm | hs
        · exact Or.inl hm
        · rw [hpos] at hs
          exact Or.inr hs
      case wantRead | wantWrite =>
        refine ⟨hw, fun hbusy => ?_⟩
        rcases hbusy with hm | hs
        · exact hb (Or.inl hm)
        · rw [hpos] at hs
          refine hr ?_
          simp only [Released, calling, hpos]
          exact congrArg some hs
      case zeroReturn | fatal =>
        refine ⟨watched_closed (s := s.record _) hw, fun hbusy => ?_⟩
        rcases hbusy with hm | hs
        · exact hb (Or.inl hm)
        · rw [hpos] at hs
          obtain ⟨a, hal, hid, hst⟩ := hw
          change ((State.setState (s.record _) h.c .closed).nodes a).id = j at hid
          change ((State.setState (s.record _) h.c .closed).nodes a).state = _ at hst
          rw [setState_id] at hid
          obtain rfl := hl.ids a ((hl.live a).mp hal) h.c ha.1.mem (hid.trans hs.symm)
          rw [setState_state, if_pos rfl] at hst
          cases hst
    | _ => simp only [Enabled, hpos] at he
  | sslWrite r =>
    cases hpos : s.pos with
    | writing h buf cur written =>
      have hstill {t : State} {p : Pos} (hbatch : t.batch = s.batch)
          (hid : (t.nodes h.c).id = (s.nodes h.c).id)
          (hp : Serving t j (.reading h) → Serving (t.goto p) j p)
          (hb : ¬ Busy (t.goto p) j) : ¬ Busy s j := by
        rintro (⟨fd, hm⟩ | hs)
        · exact hb (Or.inl ⟨fd, hbatch ▸ hm⟩)
        · rw [hpos] at hs
          exact hb (Or.inr (hp (hid.trans hs)))
      cases r <;> simp only [next, hpos] at hw hb
      case wrote n =>
        refine ⟨hw, hstill (t := s.record _) rfl rfl (fun hs => ?_) hb⟩
        unfold offer
        split <;> exact hs
      case wantRead | wantWrite =>
        refine ⟨hw, hstill (t := s.record _) rfl rfl ?_ hb⟩
        exact fun hs => hs
      case fatal =>
        refine ⟨watched_closed (s := s.record _) hw, ?_⟩
        refine hstill (t := (s.record _).setState cur .closed) rfl (setState_id ..) ?_ hb
        exact fun hs => hs
    | _ => simp only [Enabled, hpos] at he

theorem Released.calling (hr : Released s j e) : calling s = some j := by
  unfold Released at hr
  split at hr <;> first | exact hr | exact hr.elim

/-- A connection just left is one of those that wait for their next event. -/
theorem released_watched (hi : Invariant s l) (he : Enabled s e) (hr : Released s j e) :
    Watched (next s e) j ∧ ¬ Busy (next s e) j := by
  obtain ⟨hl, ha⟩ := hi
  have hcall := hr.calling
  cases e with
  | sslAccept r =>
    cases hpos : s.pos with
    | handshaking h =>
      rw [hpos] at ha
      simp only [TlsNotifications.calling, hpos] at hcall
      obtain rfl := Option.some.inj hcall
      cases r with
      | done =>
        simp only [next, hpos]
        refine ⟨⟨h.c, (hl.live _).mpr ha.1.mem, setState_id .., ?_⟩, ?_⟩
        · exact (setState_state ..).trans (if_pos rfl)
        · rintro (⟨fd, hm⟩ | hs)
          · exact ha.1.not_pending hl fd hm
          · exact hs
      | _ => exact hr.elim
    | _ => simp only [Enabled, hpos] at he
  | sslRead r =>
    cases hpos : s.pos with
    | reading h =>
      rw [hpos] at ha
      simp only [TlsNotifications.calling, hpos] at hcall
      obtain rfl := Option.some.inj hcall
      cases r with
      | wantRead | wantWrite =>
        simp only [next, hpos]
        refine ⟨⟨h.c, (hl.live _).mpr ha.1.mem, rfl, ha.2⟩, ?_⟩
        rintro (⟨fd, hm⟩ | hs)
        · exact ha.1.not_pending hl fd hm
        · exact hs
      | _ => exact hr.elim
    | _ => simp only [Enabled, hpos] at he
  | _ => exact hr.elim

variable {t : Net} {taken : ℕ}

theorem observe_settled (hp : ∀ ready, e ≠ .poll ready) (h : t.kernel.Settled j) :
    (observe t e taken).Settled j := by
  cases e with
  | poll ready => exact absurd rfl (hp ready)
  | accept fd a => exact h.notify _
  | advance | acceptFailed => exact h
  | sslAccept | sslRead | sslWrite =>
    simp only [observe]
    split
    · exact h.consume _ _
    · exact h

theorem observe_released (hr : Released t.server j e) (hle : taken ≤ t.kernel.unread j) :
    (observe t e taken).Settled j ↔ t.kernel.unread j = taken ∨ t.kernel.notified j = true := by
  have hcall := hr.calling
  cases e with
  | sslAccept | sslRead =>
    simp only [observe, hcall]
    exact Readiness.settled_consume hle
  | _ => exact hr.elim

/-- A step strands nothing new exactly if the call it makes leaves nothing behind. -/
theorem step_unstranded (hi : Invariant t.server l) (hu : Unstranded t) {e : Step}
    (he : StepEnabled t e) : Unstranded (netNext t e) ↔ LeavesNothing t e := by
  cases e with
  | arrive j n => exact iff_of_true (hu.arrive j n) trivial
  | writable j => exact iff_of_true (hu.notify j) trivial
  | code e taken =>
    obtain ⟨he, hcall, hpoll⟩ := he
    by_cases hp : ∃ ready, e = .poll ready
    · obtain ⟨ready, rfl⟩ := hp
      refine iff_of_true (hu.deliver (fun j => ?_) fun j hj => ?_) trivial
      · obtain ⟨hpos, hbatch, _⟩ := he
        rintro (⟨fd, hm⟩ | hs)
        · rw [hbatch] at hm
          cases hm
        · rw [hpos] at hs
          exact hs
      · obtain ⟨r, hr, hid⟩ := List.mem_filterMap.mp hj
        cases r with
        | listener => cases hid
        | conn fd id =>
          obtain rfl := Option.some.inj hid
          exact Or.inl ⟨fd, hr⟩
    · have hp : ∀ ready, e ≠ .poll ready := fun ready heq => hp ⟨ready, heq⟩
      have hleft {j : ConnId} (hr : Released t.server j e) :
          (observe t e taken).Settled j ↔
            t.kernel.unread j = taken ∨ t.kernel.notified j = true :=
        observe_released hr (hcall j hr.calling).1
      constructor
      · intro hu'
        have hdue {j : ConnId} (hr : Released t.server j e) :
            t.kernel.unread j = taken ∨ t.kernel.notified j = true := by
          obtain ⟨hw, hb⟩ := released_watched hi he hr
          exact (hleft hr).mp (hu' j hw hb)
        unfold LeavesNothing
        split
        · next heq =>
          obtain ⟨rfl, rfl⟩ := Step.code.inj heq
          exact fun j hj => hdue hj
        · next heq =>
          obtain ⟨rfl, rfl⟩ := Step.code.inj heq
          exact fun j hj => hdue hj
        · trivial
      · intro hc j hw hb
        by_cases hr : Released t.server j e
        · refine (hleft hr).mpr ?_
          have hj := hr.calling
          unfold Released at hr
          split at hr
          · exact hc j hj
          · exact Or.inl ((hcall j hj).2 trivial).symm
          · exact hc j hj
          · exact hr.elim
        · obtain ⟨hw, hb⟩ := step_watched hi he hp hr hw hb
          exact observe_settled hp (hu j hw hb)

/-! ## Every run -/

theorem run_connected {listenFd : Fd} {reserved : Finset Fd} {es : List Step}
    (h : (net listenFd reserved).Valid es) :
    ∃ l, Invariant ((net listenFd reserved).run es).server l := by
  refine Machine.invariant (I := fun t : Net => ∃ l, Invariant t.server l)
    ⟨[], initial_invariant listenFd reserved⟩ (fun t e hi he => ?_) h
  cases e with
  | code e taken =>
    obtain ⟨l, hi⟩ := hi
    exact step_invariant hi he.1
  | arrive | writable => exact hi

theorem initial_unstranded (listenFd : Fd) (reserved : Finset Fd) :
    Unstranded (initialNet listenFd reserved) := fun _ _ _ => Or.inl rfl

/-- Waiting for the next events, the server has nothing unread on an established connection
for which no notification is on its way. -/
def Prompt (t : Net) : Prop := t.server.pos = .dispatch → t.server.batch = [] →
  ∀ a ∈ t.server.live, (t.server.nodes a).state = .established →
    t.kernel.Settled (t.server.nodes a).id

theorem Unstranded.prompt {t : Net} (h : Unstranded t) : Prompt t := by
  intro hpos hbatch a ha hst
  refine h _ ⟨a, ha, rfl, hst⟩ ?_
  rintro (⟨fd, hm⟩ | hs)
  · rw [hbatch] at hm
    cases hm
  · rw [hpos] at hs
    exact hs

/-- No state of a run has anything stranded exactly if every handshake that completes and
every read that waits for room leaves nothing unread, or a notification on its way; then the
server never waits with bytes unread. -/
theorem prompt_iff_leaves_nothing (listenFd : Fd) (reserved : Finset Fd) (es : List Step)
    (h : (net listenFd reserved).Valid es) :
    ((net listenFd reserved).Along LeavesNothing es ↔
      (net listenFd reserved).Along (fun t e => Unstranded (netNext t e)) es) ∧
    ((net listenFd reserved).Along LeavesNothing es → Prompt ((net listenFd reserved).run es)) := by
  have hiff := Machine.along_iff_reached (M := net listenFd reserved) (C := LeavesNothing)
    (initial_unstranded listenFd reserved) (fun es e hv he hu => by
      obtain ⟨l, hi⟩ := run_connected hv
      exact step_unstranded hi hu he) h
  refine ⟨hiff, fun hc => ?_⟩
  have hall := hiff.mp hc
  have hu : Unstranded ((net listenFd reserved).run es) :=
    Machine.reached_run (M := net listenFd reserved) (initial_unstranded listenFd reserved) hall
  exact hu.prompt

instance (t : Net) (e : Step) : Decidable (LeavesNothing t e) := by
  unfold LeavesNothing
  split <;> infer_instance

/-- The application data come after the handshake and are read to the end. -/
theorem prompt_separate_arrivals :
    let es : List Step := [.code (.poll [.listener]) 0, .code .advance 0, .code (.accept 5 50) 0,
      .code .acceptFailed 0, .arrive 0 300, .code (.poll [.conn 5 0]) 0, .code .advance 0,
      .code .advance 0, .code (.sslAccept .wantRead) 300, .arrive 0 80,
      .code (.poll [.conn 5 0]) 0, .code .advance 0, .code .advance 0, .code (.sslAccept .done) 80,
      .arrive 0 25, .code (.poll [.conn 5 0]) 0, .code .advance 0, .code .advance 0,
      .code (.sslRead (.data [104, 105])) 25, .code .advance 0, .code .advance 0,
      .code (.sslRead .wantRead) 0, .code .advance 0]
    Prompt ((net 3 {0, 1, 2, 4}).run es) :=
  (prompt_iff_leaves_nothing 3 {0, 1, 2, 4} _ (by decide)).2 (by decide)

/-- The client's first message comes together with the end of its handshake. -/
theorem message_stranded_by_handshake :
    let es : List Step := [.code (.poll [.listener]) 0, .code .advance 0, .code (.accept 5 50) 0,
      .code .acceptFailed 0, .arrive 0 300, .code (.poll [.conn 5 0]) 0, .code .advance 0,
      .code .advance 0, .code (.sslAccept .wantRead) 300, .arrive 0 105,
      .code (.poll [.conn 5 0]) 0, .code .advance 0, .code .advance 0, .code (.sslAccept .done) 80]
    (net 3 {0, 1, 2, 4}).Valid es ∧ ¬ Prompt ((net 3 {0, 1, 2, 4}).run es) := by
  refine ⟨by decide, fun hp => ?_⟩
  exact absurd (hp (by decide) (by decide) 50 (by decide) (by decide)) (by decide)

end TlsNotifications
