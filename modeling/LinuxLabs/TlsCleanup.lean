import LinuxLabs.TlsBroadcast

/-! # When the TLS chat server cleans up (lab 16)
The handler of an event removes the connection of that event if it is closed. One that a broadcast
has closed is removed only if its own event is still to come in the batch. -/
namespace TlsCleanup

open Execution LinkedList TlsChatServer TlsConnections TlsCalls TlsBroadcast

/-- The next call is `epoll_wait`. -/
def AtWait (s : State) : Prop := s.pos = .dispatch ∧ s.batch = []

/-- No connection on the list is closed, and of one that has failed nothing is left. -/
structure Clean (s : State) : Prop where
  listed : ∀ l, Chain s.next s.connections l → ∀ a ∈ l, (s.nodes a).state ≠ .closed
  released : ∀ c ∈ s.calls, ∀ j, Ends j c →
    (∀ a ∈ s.live, (s.nodes a).id ≠ j) ∧ ∀ fd, s.registered fd ≠ some j

/-- The server cleans up before it waits again. -/
def Prompt (s : State) (e : Event) : Prop := AtWait (next s e) → Clean (next s e)

/-- The event of the connection at `a` is still in the batch. -/
def EventAhead (s : State) (a : Addr) : Prop := .conn (s.nodes a).fd (s.nodes a).id ∈ s.batch

/-- When a write fails for good, the recipient's event is still to come. -/
def WritesAhead (s : State) : Event → Prop
  | .sslWrite .fatal =>
    match s.pos with
    | .writing _ _ cur _ => EventAhead s cur
    | _ => True
  | _ => True

instance (s : State) (a : Addr) : Decidable (EventAhead s a) :=
  inferInstanceAs (Decidable (_ ∈ s.batch))

instance (s : State) (e : Event) : Decidable (WritesAhead s e) := by
  casesm* Event, WriteResult <;> simp only [WritesAhead]
  case sslWrite.fatal =>
    generalize s.pos = pos
    casesm Pos <;> infer_instance
  all_goals infer_instance

/-! ## The connections that no event comes to -/

/-- The handler is looking for the connection at `a`, or is about to test it. -/
def Looks (s : State) (a : Addr) : Pos → Prop
  | .finding fd _ _ _ => (s.nodes a).fd = fd
  | .cleanup h => h.c = a
  | _ => False

structure Overlooked (s : State) (a : Addr) : Prop where
  live : a ∈ s.live
  closed : (s.nodes a).state = .closed
  past : ¬ EventAhead s a
  unseen : ¬ Looks s a s.pos

variable {s : State} {l : List Addr} {h : Handler} {a b : Addr} {e : Event}

theorem overlooked_moved {pos : Pos} (calls : List Call)
    (hlooks : a ∈ s.live → (s.nodes a).state = .closed → (Looks s a pos ↔ Looks s a s.pos)) :
    Overlooked { s with calls := calls, pos := pos } a ↔ Overlooked s a := by
  constructor
  · rintro ⟨hlive, hclosed, hpast, hunseen⟩
    exact ⟨hlive, hclosed, hpast, fun hl => hunseen ((hlooks hlive hclosed).mpr hl)⟩
  · rintro ⟨hlive, hclosed, hpast, hunseen⟩
    exact ⟨hlive, hclosed, hpast, fun hl => hunseen ((hlooks hlive hclosed).mp hl)⟩

/-- A call sets the state of a connection that is not closed: this one is overlooked if it is closed
now and nothing comes to it. -/
theorem overlooked_setState (calls : List Call) {st : ConnState} {pos : Pos}
    (hunseen : ¬ Looks s a s.pos) (hother : a ≠ b → ¬ Looks s a pos) (hlive : b ∈ s.live)
    (hopen : (s.nodes b).state ≠ .closed) :
    Overlooked (({ s with calls := calls }.setState b st).goto pos) a ↔
      Overlooked s a ∨ a = b ∧ st = .closed ∧ ¬ EventAhead s a ∧ ¬ Looks s a pos := by
  set t := ({ s with calls := calls }.setState b st).goto pos
  have hstate : (t.nodes a).state = if a = b then st else (s.nodes a).state := setState_state ..
  have hfd : (t.nodes a).fd = (s.nodes a).fd := setState_fd ..
  have hid : (t.nodes a).id = (s.nodes a).id := setState_id ..
  have hahead : EventAhead t a ↔ EventAhead s a := by
    unfold EventAhead
    rw [hfd, hid]
    rfl
  have hlooks : Looks t a pos ↔ Looks s a pos := by
    cases pos <;> simp only [Looks, hfd]
  by_cases heq : a = b
  · subst heq
    rw [if_pos rfl] at hstate
    constructor
    · rintro ⟨-, hclosed, hpast, hnot⟩
      exact Or.inr ⟨rfl, hstate ▸ hclosed, mt hahead.mpr hpast, mt hlooks.mpr hnot⟩
    · rintro (ho | ⟨-, hclosed, hpast, hnot⟩)
      · exact absurd ho.closed hopen
      · exact ⟨hlive, hstate.trans hclosed, mt hahead.mp hpast, mt hlooks.mp hnot⟩
  · rw [if_neg heq] at hstate
    constructor
    · rintro ⟨hlive, hclosed, hpast, -⟩
      exact Or.inl ⟨hlive, hstate ▸ hclosed, mt hahead.mpr hpast, hunseen⟩
    · rintro (⟨hlive, hclosed, hpast, -⟩ | ⟨hab, -⟩)
      · exact ⟨hlive, hstate.trans hclosed, mt hahead.mp hpast, mt hlooks.mp (hother heq)⟩
      · exact absurd hab heq

theorem ne_of_open (hopen : (s.nodes b).state ≠ .closed) (hclosed : (s.nodes a).state = .closed) :
    b ≠ a := by
  rintro rfl
  exact hopen hclosed

/-- A connection that its own handler closes is tested next. -/
theorem overlooked_own (hunseen : ¬ Looks s a s.pos) (hlive : h.c ∈ s.live)
    (hopen : (s.nodes h.c).state ≠ .closed) (calls : List Call) :
    Overlooked (({ s with calls := calls }.setState h.c .closed).goto (.cleanup h)) a ↔
      Overlooked s a := by
  have hother : a ≠ h.c → ¬ Looks s a (.cleanup h) := fun hne heq => hne (Eq.symm heq)
  refine (overlooked_setState calls hunseen hother hlive hopen).trans ?_
  apply or_iff_left
  rintro ⟨heq, -, -, hnot⟩
  exact hnot heq.symm

/-- The search ends at the connection of the event. -/
theorem overlooked_finding (hl : Listed s l) {fd : Fd} {j : ConnId} {prev c : Option Addr}
    (hpos : s.pos = .finding fd j prev c) (ha : At s l (.finding fd j prev c)) :
    Overlooked (advance s) a ↔ Overlooked s a := by
  obtain ⟨-, -, l₁, l₂, rfl, -, hc, d, hdl, -⟩ := ha
  cases l₂ with
  | nil => cases hdl
  | cons b l₂ =>
    subst hc
    simp only [advance, hpos, List.head?_cons]
    split
    · exact overlooked_moved s.calls fun _ _ => by rw [hpos]; exact Iff.rfl
    · next hfd =>
      have hfd := not_not.mp hfd
      have hb : b ∈ l₁ ++ b :: l₂ := by simp
      have hmine : a ∈ s.live → ((s.nodes a).fd = fd ↔ b = a) := fun hlive =>
        ⟨fun haf => hl.fds hb ((hl.live a).mp hlive) (hfd.trans haf.symm), fun hba => hba ▸ hfd⟩
      have hother (hopen : (s.nodes b).state ≠ .closed) (hlive : a ∈ s.live)
          (hclosed : (s.nodes a).state = .closed) : ¬ Looks s a s.pos := by
        rw [hpos]
        exact fun haf => ne_of_open hopen hclosed ((hmine hlive).mp haf)
      split
      · next hst =>
        refine overlooked_moved s.calls fun hlive hclosed => iff_of_false id ?_
        exact hother (by rw [hst]; exact ConnState.noConfusion) hlive hclosed
      · next hst =>
        refine overlooked_moved s.calls fun hlive hclosed => iff_of_false id ?_
        exact hother (by rw [hst]; exact ConnState.noConfusion) hlive hclosed
      · refine overlooked_moved s.calls fun hlive _ => ?_
        rw [hpos]
        exact (hmine hlive).symm

/-- An event that is taken out of the batch starts the search for its connection. -/
theorem overlooked_take (hl : Listed s l) (hpos : s.pos = .dispatch) {r : Ready}
    {rest : List Ready} (hb : s.batch = r :: rest) : Overlooked (advance s) a ↔ Overlooked s a := by
  have hsplit : EventAhead s a ↔ .conn (s.nodes a).fd (s.nodes a).id = r ∨
      .conn (s.nodes a).fd (s.nodes a).id ∈ rest := by
    unfold EventAhead
    rw [hb, List.mem_cons]
  have hunseen : ¬ Looks s a s.pos := by
    rw [hpos]
    exact id
  cases r with
  | listener =>
    simp only [advance, hpos, hb]
    constructor
    · rintro ⟨hlive, hclosed, hpast, -⟩
      refine ⟨hlive, hclosed, fun hp => hpast ?_, hunseen⟩
      exact (hsplit.mp hp).resolve_left Ready.noConfusion
    · rintro ⟨hlive, hclosed, hpast, -⟩
      exact ⟨hlive, hclosed, fun hp => hpast (hsplit.mpr (Or.inr hp)), id⟩
  | conn fd j =>
    simp only [advance, hpos, hb]
    have hreg : s.registered fd = some j := hl.pending (.conn fd j) (by simp [hb])
    constructor
    · rintro ⟨hlive, hclosed, hpast, hother⟩
      refine ⟨hlive, hclosed, fun hp => ?_, hunseen⟩
      rcases hsplit.mp hp with heq | hp
      · exact hother (Ready.conn.inj heq).1
      · exact hpast hp
    · rintro ⟨hlive, hclosed, hpast, -⟩
      refine ⟨hlive, hclosed, fun hp => hpast (hsplit.mpr (Or.inr hp)), fun haf => ?_⟩
      have hid := (hl.registered _ _).mpr ⟨a, (hl.live a).mp hlive, haf, rfl⟩
      have hj : (s.nodes a).id = j := Option.some.inj (hid.symm.trans hreg)
      refine hpast (hsplit.mpr (Or.inl ?_))
      rw [hj, haf]

theorem overlooked_cleanup (hpos : s.pos = .cleanup h) :
    Overlooked (advance s) a ↔ Overlooked s a := by
  have hseen : Looks s a s.pos ↔ h.c = a := by
    rw [hpos]
    exact Iff.rfl
  simp only [advance, hpos]
  split
  · next hst =>
    set t := (removeConnection { s with registered := Function.update s.registered h.fd none }
      h.prev h.c).goto .dispatch
    obtain ⟨hfd, hstate, hid⟩ : (t.nodes a).fd = (s.nodes a).fd ∧
        (t.nodes a).state = (s.nodes a).state ∧ (t.nodes a).id = (s.nodes a).id :=
      removeConnection_nodes ..
    have hahead : EventAhead t a ↔ EventAhead s a := by
      unfold EventAhead
      rw [hid, hfd]
      rfl
    constructor
    · rintro ⟨hlive, hclosed, hpast, -⟩
      obtain ⟨hne, hlive⟩ := Finset.mem_erase.mp hlive
      exact ⟨hlive, hstate ▸ hclosed, mt hahead.mpr hpast, fun hl => hne (hseen.mp hl).symm⟩
    · rintro ⟨hlive, hclosed, hpast, hunseen⟩
      refine ⟨Finset.mem_erase.mpr ⟨fun heq => ?_, hlive⟩, hstate.trans hclosed,
        mt hahead.mp hpast, id⟩
      exact hunseen (hseen.mpr heq.symm)
  · next hopen =>
    refine overlooked_moved s.calls fun _ hclosed => iff_of_false id fun hl => ?_
    exact ne_of_open hopen hclosed (hseen.mp hl)

theorem overlooked_advance (hi : Invariant s l) : Overlooked (advance s) a ↔ Overlooked s a := by
  obtain ⟨hl, ha⟩ := hi
  cases hpos : s.pos with
  | dispatch =>
    cases hb : s.batch with
    | nil => simp only [advance, hpos, hb]
    | cons r rest => exact overlooked_take hl hpos hb
  | finding fd j prev c => exact overlooked_finding hl hpos (hpos ▸ ha)
  | broadcasting h buf cur =>
    have hstay (pos : Pos) (hp : ¬ Looks s a pos) : Overlooked (s.goto pos) a ↔ Overlooked s a :=
      overlooked_moved s.calls fun _ _ => iff_of_false hp (by rw [hpos]; exact id)
    cases cur with
    | none =>
      simp only [advance, hpos]
      exact hstay _ id
    | some cur =>
      simp only [advance, hpos]
      split
      · apply hstay
        unfold offer
        split <;> exact id
      · exact hstay _ id
  | cleanup h => exact overlooked_cleanup hpos
  | accepting | handshaking | reading | writing => simp only [advance, hpos]

/-- The write of this step closes the connection at `a` when its event is past. -/
def Drops (s : State) (e : Event) (a : Addr) : Prop :=
  e = .sslWrite .fatal ∧ (∃ h buf written, s.pos = .writing h buf a written) ∧ ¬ EventAhead s a

theorem overlooked_accept {fd : Fd} (hpos : s.pos = .accepting) (hb : b ∉ s.live) :
    Overlooked (addConnection s fd b) a ↔ Overlooked s a := by
  have hnew : (addConnection s fd b).nodes b = ⟨fd, .handshake, s.connections, s.accepted⟩ :=
    Function.update_self ..
  have hunseen (t : State) : ¬ Looks t a s.pos := by
    rw [hpos]
    exact id
  by_cases heq : a = b
  · subst heq
    refine iff_of_false ?_ fun ho => hb ho.live
    rintro ⟨-, hclosed, -, -⟩
    rw [hnew] at hclosed
    cases hclosed
  · have hold : (addConnection s fd b).nodes a = s.nodes a := Function.update_of_ne heq ..
    have hahead : EventAhead (addConnection s fd b) a ↔ EventAhead s a := by
      unfold EventAhead
      rw [hold]
      rfl
    constructor
    · rintro ⟨hlive, hclosed, hpast, -⟩
      refine ⟨(Finset.mem_insert.mp hlive).resolve_left heq, hold ▸ hclosed, mt hahead.mpr hpast,
        hunseen s⟩
    · rintro ⟨hlive, hclosed, hpast, -⟩
      exact ⟨Finset.mem_insert_of_mem hlive, hold.symm ▸ hclosed, mt hahead.mp hpast, hunseen _⟩

/-- Between two waits a step overlooks no more than the connection that its write closes. -/
theorem overlooked_next (hi : Invariant s l) (he : Enabled s e)
    (hpoll : ∀ ready, e ≠ .poll ready) :
    Overlooked (next s e) a ↔ Overlooked s a ∨ Drops s e a := by
  obtain ⟨hl, ha⟩ := hi
  have hkeep {t : State} (hsame : Overlooked t a ↔ Overlooked s a) (hd : e ≠ .sslWrite .fatal) :
      Overlooked t a ↔ Overlooked s a ∨ Drops s e a :=
    hsame.trans (or_iff_left fun h => hd h.1).symm
  cases e with
  | poll ready => exact absurd rfl (hpoll ready)
  | advance => exact hkeep (overlooked_advance ⟨hl, ha⟩) Event.noConfusion
  | accept fd b => exact hkeep (overlooked_accept he.1 he.2.2.2) Event.noConfusion
  | acceptFailed =>
    refine hkeep (overlooked_moved s.calls fun _ _ => iff_of_false id ?_) Event.noConfusion
    rw [show s.pos = .accepting from he]
    exact id
  | sslAccept r =>
    refine hkeep ?_ Event.noConfusion
    cases hpos : s.pos with
    | handshaking h =>
      rw [hpos] at ha
      have hopen : (s.nodes h.c).state ≠ .closed := by
        rw [ha.2]
        exact ConnState.noConfusion
      have hlive : h.c ∈ s.live := (hl.live h.c).mpr ha.1.mem
      have hunseen : ¬ Looks s a s.pos := by
        rw [hpos]
        exact id
      simp only [next, hpos]
      cases r with
      | done =>
        refine (overlooked_setState _ hunseen (fun _ => id) hlive hopen).trans (or_iff_left ?_)
        rintro ⟨-, hst, -⟩
        cases hst
      | wantRead | wantWrite =>
        exact overlooked_moved _ fun _ _ => iff_of_false id hunseen
      | fatal => exact overlooked_own hunseen hlive hopen _
    | _ => simp only [Enabled, hpos] at he
  | sslRead r =>
    refine hkeep ?_ Event.noConfusion
    cases hpos : s.pos with
    | reading h =>
      rw [hpos] at ha
      have hopen : (s.nodes h.c).state ≠ .closed := by
        rw [ha.2]
        exact ConnState.noConfusion
      have hlive : h.c ∈ s.live := (hl.live h.c).mpr ha.1.mem
      have hunseen : ¬ Looks s a s.pos := by
        rw [hpos]
        exact id
      simp only [next, hpos]
      cases r with
      | data bytes => exact overlooked_moved _ fun _ _ => iff_of_false id hunseen
      | wantRead | wantWrite =>
        refine overlooked_moved _ fun _ hclosed => iff_of_false ?_ hunseen
        exact ne_of_open hopen hclosed
      | zeroReturn | fatal => exact overlooked_own hunseen hlive hopen _
    | _ => simp only [Enabled, hpos] at he
  | sslWrite r =>
    cases hpos : s.pos with
    | writing h buf cur written =>
      rw [hpos] at ha
      obtain ⟨-, -, -, -, hest, hcur⟩ := ha
      have hunseen : ¬ Looks s a s.pos := by
        rw [hpos]
        exact id
      simp only [next, hpos]
      cases r with
      | wrote n =>
        refine hkeep (overlooked_moved _ fun _ _ => iff_of_false ?_ hunseen) (by simp)
        unfold offer
        split <;> exact id
      | wantRead | wantWrite =>
        exact hkeep (overlooked_moved _ fun _ _ => iff_of_false id hunseen) (by simp)
      | fatal =>
        have hopen : (s.nodes cur).state ≠ .closed := by
          rw [hest]
          exact ConnState.noConfusion
        have hlive := (hl.live cur).mpr hcur
        refine (overlooked_setState _ hunseen (fun _ => id) hlive hopen).trans ?_
        have hdrops : Drops s (.sslWrite .fatal) a ↔ a = cur ∧ ¬ EventAhead s a := by
          simp [Drops, hpos, eq_comm]
        rw [hdrops]
        simp [Looks]
    | _ => simp only [Enabled, hpos] at he

/-! ## At the next wait -/

/-- A closed connection is tested before the next wait. -/
def NoneOverlooked (s : State) : Prop := ∀ a, ¬ Overlooked s a

theorem writesAhead_iff : WritesAhead s e ↔ ∀ a, ¬ Drops s e a := by
  unfold WritesAhead Drops
  split
  · split
    · next h buf cur written hpos => simp [hpos]
    · next hother =>
      refine iff_of_true trivial ?_
      rintro a ⟨-, ⟨h, buf, written, hpos⟩, -⟩
      exact hother h buf a written hpos
  · next hother =>
    refine iff_of_true trivial ?_
    rintro a ⟨heq, -⟩
    exact hother heq

theorem noneOverlooked_next (hi : Invariant s l) (he : Enabled s e)
    (hpoll : ∀ ready, e ≠ .poll ready) :
    NoneOverlooked (next s e) ↔ NoneOverlooked s ∧ WritesAhead s e := by
  rw [writesAhead_iff]
  unfold NoneOverlooked
  rw [← forall_and]
  refine forall_congr' fun a => ?_
  rw [overlooked_next hi he hpoll, not_or]

/-- At a wait no event is ahead and none is being handled. -/
theorem clean_iff (hi : Invariant s l) (hg : Logged s) (hw : AtWait s) :
    Clean s ↔ NoneOverlooked s := by
  obtain ⟨hpos, hbatch⟩ := hw
  constructor
  · rintro hc a ⟨hlive, hclosed, -, -⟩
    exact hc.listed l hi.1.chain a ((hi.1.live a).mp hlive) hclosed
  · intro hn
    have hopen : ∀ a ∈ s.live, (s.nodes a).state ≠ .closed := by
      intro a hlive hclosed
      refine hn a ⟨hlive, hclosed, ?_, ?_⟩
      · simp [EventAhead, hbatch]
      · rw [hpos]
        exact id
    have hgone : ∀ c ∈ s.calls, ∀ j, Ends j c → ∀ a ∈ s.live, (s.nodes a).id ≠ j := by
      intro c hc j hends a hlive hid
      apply hopen a hlive
      rw [hg.states a hlive, hid]
      exact stateAfter_closed.mpr ⟨c, hc, hends⟩
    constructor
    · intro l' hl' a ha
      obtain rfl := hi.1.chain.unique hl'
      exact hopen a ((hi.1.live a).mpr ha)
    · refine fun c hc j hends => ⟨hgone c hc j hends, fun fd hfd => ?_⟩
      obtain ⟨a, hal, -, hid⟩ := (hi.1.registered fd j).mp hfd
      exact hgone c hc j hends a ((hi.1.live a).mpr hal) hid

/-- The step of `noneOverlooked_next` also for a poll, which comes when nothing is closed. -/
theorem noneOverlooked_step (hs : Settled s) (hclean : AtWait s → Clean s) (he : Enabled s e) :
    NoneOverlooked (next s e) ↔ NoneOverlooked s ∧ WritesAhead s e := by
  obtain ⟨l, hi⟩ := hs.consistent
  by_cases hpoll : ∀ ready, e ≠ .poll ready
  · exact noneOverlooked_next hi he hpoll
  · push Not at hpoll
    obtain ⟨ready, rfl⟩ := hpoll
    have hw : AtWait s := ⟨he.1, he.2.1⟩
    have hc := hclean hw
    refine iff_of_true ?_ ⟨(clean_iff hi hs.logged hw).mp hc, trivial⟩
    rintro a ⟨hlive, hclosed, -, -⟩
    exact hc.listed l hi.1.chain a ((hi.1.live a).mp hlive) hclosed

section

variable {listenFd : Fd} {reserved : Finset Fd} {es : List Event}

theorem noneOverlooked_initial : NoneOverlooked (initial listenFd reserved) := by
  rintro a ⟨hlive, -, -, -⟩
  exact absurd hlive (Finset.notMem_empty a)

theorem clean_run (hp : (machine listenFd reserved).Along Prompt es)
    (hw : AtWait ((machine listenFd reserved).run es)) :
    Clean ((machine listenFd reserved).run es) := by
  refine Machine.reached_run (P := fun s => AtWait s → Clean s) (fun hw => ?_) hp hw
  have hs := initial_settled listenFd reserved
  obtain ⟨l, hi⟩ := hs.consistent
  exact (clean_iff hi hs.logged hw).mpr noneOverlooked_initial

theorem ahead_iff (h : (machine listenFd reserved).Valid es)
    (hp : (machine listenFd reserved).Along Prompt es) :
    (machine listenFd reserved).Along WritesAhead es ↔
      NoneOverlooked ((machine listenFd reserved).run es) := by
  refine Machine.along_iff_within noneOverlooked_initial ?_ h hp
  intro es e hv hp he
  exact noneOverlooked_step (run_settled hv) (clean_run hp) he

theorem prompt_of_ahead (h : (machine listenFd reserved).Valid es)
    (hc : (machine listenFd reserved).Along WritesAhead es) :
    (machine listenFd reserved).Along Prompt es := by
  induction es using List.reverseRecOn with
  | nil => trivial
  | append_singleton es e ih =>
    obtain ⟨hv, he⟩ := (Machine.valid_concat es e).mp h
    obtain ⟨hc, hce⟩ := (Machine.along_concat es e).mp hc
    have hp := ih hv hc
    refine (Machine.along_concat es e).mpr ⟨hp, fun hw => ?_⟩
    have hn := (noneOverlooked_step (run_settled hv) (clean_run hp) he).mpr
      ⟨(ahead_iff hv hp).mp hc, hce⟩
    have hs := run_settled h
    rw [Machine.run_concat] at hs
    obtain ⟨l, hi⟩ := hs.consistent
    exact (clean_iff hi hs.logged hw).mpr hn

end

/-- While every write that fails for good meets a recipient whose event is still ahead, the server
cleans up before each wait; and in a run that has come to a wait it does in no other case. -/
theorem cleanup_prompt_iff (listenFd : Fd) (reserved : Finset Fd) (es : List Event)
    (h : (machine listenFd reserved).Valid es) :
    ((machine listenFd reserved).Along WritesAhead es →
      (machine listenFd reserved).Along Prompt es) ∧
    (AtWait ((machine listenFd reserved).run es) →
      ((machine listenFd reserved).Along Prompt es ↔
        (machine listenFd reserved).Along WritesAhead es)) := by
  refine ⟨prompt_of_ahead h, fun hw => ⟨fun hp => ?_, prompt_of_ahead h⟩⟩
  have hs := run_settled h
  obtain ⟨l, hi⟩ := hs.consistent
  exact (ahead_iff h hp).mpr ((clean_iff hi hs.logged hw).mp (clean_run hp hw))

/-- Two clients are established; a batch begins with the event of the first, whose message finds
the second gone. -/
def peerGone (later : List Ready) : List Event :=
  [.poll [.listener], .advance, .accept 5 50, .accept 6 60, .acceptFailed,
    .poll [.conn 5 0, .conn 6 1], .advance, .advance, .advance, .sslAccept .done,
    .advance, .advance, .sslAccept .done,
    .poll (.conn 5 0 :: later), .advance, .advance, .advance, .sslRead (.data [104, 105]),
    .advance, .sslWrite .fatal, .advance, .advance, .sslRead .wantRead, .advance]

/-- The event of the second is next in the batch. -/
theorem cleanup_prompt_later : (machine 3 {0, 1, 2, 4}).Along Prompt
    (peerGone [.conn 6 1] ++ [.advance, .advance, .advance]) :=
  (cleanup_prompt_iff 3 {0, 1, 2, 4} _ (by decide)).1 (by decide)

/-- It has none in this batch, and is still listed at the next wait. -/
theorem cleanup_not_prompt : (machine 3 {0, 1, 2, 4}).Valid (peerGone []) ∧
    ¬ (machine 3 {0, 1, 2, 4}).Along Prompt (peerGone []) := by
  refine ⟨by decide, fun hp => ?_⟩
  have hclean := clean_run hp ⟨by decide, by decide⟩
  have hchain : Chain ((machine 3 {0, 1, 2, 4}).run (peerGone [])).next
      ((machine 3 {0, 1, 2, 4}).run (peerGone [])).connections [60, 50] := by
    rw [chain_cons, chain_cons, chain_nil]
    decide
  exact hclean.listed [60, 50] hchain 60 (by decide) (by decide)

end TlsCleanup
