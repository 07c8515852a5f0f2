import LinuxLabs.TlsChatServer

/-! # The list of connections of the TLS chat server
What the list, the epoll set and the batch have to do with each other, wherever the thread
is: the events still to be handled are for connections on the list, and the handler's `prev`
is the node before its `c`. -/
namespace TlsConnections

open Execution LinkedList TlsChatServer

/-- The list the server walks holds exactly the connections that are allocated, numbered
and registered; what is left of the batch is about connections that still are. -/
structure Listed (s : State) (l : List Addr) : Prop where
  chain : Chain s.next s.connections l
  live : ∀ a, a ∈ s.live ↔ a ∈ l
  numbered : ∀ a ∈ l, (s.nodes a).id < s.accepted
  ids : ∀ a ∈ l, ∀ b ∈ l, (s.nodes a).id = (s.nodes b).id → a = b
  registered : ∀ fd id, s.registered fd = some id ↔
    ∃ a ∈ l, (s.nodes a).fd = fd ∧ (s.nodes a).id = id
  free : ∀ fd ∈ s.reserved, s.registered fd = none
  listening : s.listenFd ∈ s.reserved
  pending : ∀ r ∈ s.batch, r.Reported s
  once : (s.batch.map (Ready.fd s.listenFd)).Nodup

variable {s : State} {l : List Addr} {h : Handler}

theorem Listed.fds (hl : Listed s l) {a b : Addr} (ha : a ∈ l) (hb : b ∈ l)
    (heq : (s.nodes a).fd = (s.nodes b).fd) : a = b := by
  have hra := (hl.registered _ _).mpr ⟨a, ha, rfl, rfl⟩
  have hrb := (hl.registered _ _).mpr ⟨b, hb, rfl, rfl⟩
  rw [heq, hrb] at hra
  exact hl.ids a ha b hb (Option.some.inj hra).symm

theorem Listed.fds_nodup (hl : Listed s l) : (l.map fun a => (s.nodes a).fd).Nodup :=
  List.Nodup.map_on (fun _ ha _ hb heq => hl.fds ha hb heq) hl.chain.nodup

theorem Listed.setState (hl : Listed s l) (a : Addr) (st : ConnState) :
    Listed (s.setState a st) l := by
  constructor
  · rw [setState_next]
    exact hl.chain
  · exact hl.live
  · simp only [setState_id]
    exact hl.numbered
  · simp only [setState_id]
    exact hl.ids
  · simp only [setState_id, setState_fd]
    exact hl.registered
  · exact hl.free
  · exact hl.listening
  · exact hl.pending
  · exact hl.once

theorem Listed.moved (hl : Listed s l) (pos : Pos) (calls : List Call) :
    Listed { s with pos := pos, calls := calls } l :=
  ⟨hl.chain, hl.live, hl.numbered, hl.ids, hl.registered, hl.free, hl.listening, hl.pending,
    hl.once⟩

/-- What a walk still has ahead of it is on the list. -/
theorem Listed.ahead (hl : Listed s l) {cur : Addr} {m : List Addr} (hcur : cur ∈ l)
    (hm : Chain s.next (some cur) (cur :: m)) : ∀ a ∈ m, a ∈ l := by
  obtain ⟨l₁, l₂, rfl⟩ := List.append_of_mem hcur
  obtain ⟨r, _, hr⟩ := chain_append.mp hl.chain
  obtain rfl := hr.1
  obtain ⟨_, rfl⟩ := List.cons.inj (hm.unique hr)
  exact fun a ha => List.mem_append_right _ (List.mem_cons_of_mem _ ha)

/-- The handler has found the connection of its event, and the node before it. -/
structure Handles (s : State) (l : List Addr) (h : Handler) : Prop where
  taken : h.fd ∉ s.batch.map (Ready.fd s.listenFd)
  fd : (s.nodes h.c).fd = h.fd
  id : (s.nodes h.c).id = h.id
  place : ∃ l₁ l₂, l = l₁ ++ h.c :: l₂ ∧ h.prev = l₁.getLast?

theorem Handles.mem (hh : Handles s l h) : h.c ∈ l := by
  obtain ⟨l₁, l₂, rfl, _⟩ := hh.place
  exact List.mem_append_right _ List.mem_cons_self

theorem Handles.setState (hh : Handles s l h) (a : Addr) (st : ConnState) :
    Handles (s.setState a st) l h :=
  ⟨hh.taken, by simpa using hh.fd, by simpa using hh.id, hh.place⟩

theorem Handles.moved (hh : Handles s l h) (pos : Pos) (calls : List Call) :
    Handles { s with pos := pos, calls := calls } l h := ⟨hh.taken, hh.fd, hh.id, hh.place⟩

/-- The connection at `c` is in none of the events still in the batch. -/
theorem Handles.not_pending (hl : Listed s l) (hh : Handles s l h) (fd : Fd) :
    .conn fd (s.nodes h.c).id ∉ s.batch := by
  intro hm
  obtain ⟨a, hal, haf, hid⟩ := (hl.registered _ _).mp (hl.pending _ hm)
  obtain rfl := hl.ids a hal h.c hh.mem hid
  refine hh.taken (List.mem_map.mpr ⟨_, hm, ?_⟩)
  exact haf.symm.trans hh.fd

/-- What holds where the thread is. -/
def At (s : State) (l : List Addr) : Pos → Prop
  | .dispatch | .accepting => True
  | .finding fd id prev c => s.registered fd = some id ∧
    fd ∉ s.batch.map (Ready.fd s.listenFd) ∧
    ∃ l₁ l₂, l = l₁ ++ l₂ ∧ prev = l₁.getLast? ∧ c = l₂.head? ∧ ∃ a ∈ l₂, (s.nodes a).fd = fd
  | .handshaking h => Handles s l h ∧ (s.nodes h.c).state = .handshake
  | .reading h => Handles s l h ∧ (s.nodes h.c).state = .established
  | .broadcasting h buf cur => Handles s l h ∧ (s.nodes h.c).state = .established ∧ buf ≠ [] ∧
    ∃ m₁ m₂, l = m₁ ++ m₂ ∧ cur = m₂.head?
  | .writing h buf cur written => Handles s l h ∧ (s.nodes h.c).state = .established ∧
    written < buf.length ∧ cur ≠ h.c ∧ (s.nodes cur).state = .established ∧ cur ∈ l
  | .cleanup h => Handles s l h

def Invariant (s : State) (l : List Addr) : Prop := Listed s l ∧ At s l s.pos

theorem Listed.poll (hl : Listed s l) {ready : List Ready} (he : Enabled s (.poll ready)) :
    Listed { s with batch := ready } l := by
  obtain ⟨_, _, _, honce, hrep⟩ := he
  exact ⟨hl.chain, hl.live, hl.numbered, hl.ids, hl.registered, hl.free, hl.listening, hrep, honce⟩

theorem Listed.take (hl : Listed s l) {r : Ready} {rest : List Ready} (hb : s.batch = r :: rest)
    (pos : Pos) : Listed { s with batch := rest, pos := pos } l := by
  have hp := hl.pending
  have ho := hl.once
  rw [hb] at hp ho
  refine ⟨hl.chain, hl.live, hl.numbered, hl.ids, hl.registered, hl.free, hl.listening,
    fun r hr => hp r (List.mem_cons_of_mem _ hr), ?_⟩
  rw [List.map_cons, List.nodup_cons] at ho
  exact ho.2

theorem Listed.accept (hl : Listed s l) {fd : Fd} {a : Addr} (hr : fd ∉ s.reserved)
    (hf : s.registered fd = none) (ha : a ∉ s.live) : Listed (addConnection s fd a) (a :: l) := by
  have hal : a ∉ l := fun h => ha ((hl.live a).mpr h)
  have hnew : (addConnection s fd a).nodes a = ⟨fd, .handshake, s.connections, s.accepted⟩ :=
    Function.update_self ..
  have hold : ∀ b ∈ l, (addConnection s fd a).nodes b = s.nodes b := by
    intro b hb
    refine Function.update_of_ne ?_ ..
    rintro rfl
    exact hal hb
  have hother : ∀ b ∈ l, (s.nodes b).fd ≠ fd := by
    intro b hb heq
    rw [(hl.registered fd _).mpr ⟨b, hb, heq, rfl⟩] at hf
    cases hf
  constructor
  · refine hl.chain.push ?_ fun b hb => ?_
    · rw [State.next, hnew]
    · rw [State.next, hold b hb]
      rfl
  · intro b
    change b ∈ insert a s.live ↔ _
    rw [Finset.mem_insert, List.mem_cons, hl.live]
  · intro b hb
    change _ < s.accepted + 1
    rcases List.mem_cons.mp hb with rfl | hb
    · rw [hnew]
      exact Nat.lt_succ_self _
    · rw [hold b hb]
      exact Nat.lt_succ_of_lt (hl.numbered b hb)
  · intro b hb c hc heq
    rcases List.mem_cons.mp hb with rfl | hb' <;> rcases List.mem_cons.mp hc with rfl | hc'
    · rfl
    · rw [hnew, hold c hc'] at heq
      exact absurd heq.symm (hl.numbered c hc').ne
    · rw [hnew, hold b hb'] at heq
      exact absurd heq (hl.numbered b hb').ne
    · rw [hold b hb', hold c hc'] at heq
      exact hl.ids b hb' c hc' heq
  · intro fd' id
    change Function.update s.registered fd (some s.accepted) fd' = _ ↔ _
    rw [Function.update_apply]
    split
    · next heq =>
      subst fd'
      constructor
      · intro hid
        refine ⟨a, List.mem_cons_self, ?_, ?_⟩ <;> rw [hnew]
        exact Option.some.inj hid
      · rintro ⟨b, hb, hbf, rfl⟩
        rcases List.mem_cons.mp hb with rfl | hb
        · rw [hnew]
        · rw [hold b hb] at hbf
          exact absurd hbf (hother b hb)
    · next hne =>
      rw [hl.registered]
      constructor
      · rintro ⟨b, hb, hbf, hbi⟩
        rw [← hold b hb] at hbf hbi
        exact ⟨b, List.mem_cons_of_mem _ hb, hbf, hbi⟩
      · rintro ⟨b, hb, hbf, hbi⟩
        rcases List.mem_cons.mp hb with rfl | hb
        · rw [hnew] at hbf
          exact absurd hbf.symm hne
        · rw [hold b hb] at hbf hbi
          exact ⟨b, hb, hbf, hbi⟩
  · intro fd' hfd'
    have hne : fd' ≠ fd := fun heq => hr (heq ▸ hfd')
    exact (Function.update_of_ne hne ..).trans (hl.free fd' hfd')
  · exact hl.listening
  · intro r hrb
    have hrep := hl.pending r hrb
    cases r with
    | listener => trivial
    | conn fd' id =>
      have hne : fd' ≠ fd := by
        rintro rfl
        cases hf.symm.trans hrep
      exact (Function.update_of_ne hne ..).trans hrep
  · exact hl.once

/-- `c` and only `c` is unlinked when `prev` is the node before it. -/
theorem Listed.remove {l₁ l₂ : List Addr} (hl : Listed s (l₁ ++ h.c :: l₂))
    (hprev : h.prev = l₁.getLast?) (hfd : (s.nodes h.c).fd = h.fd)
    (htaken : h.fd ∉ s.batch.map (Ready.fd s.listenFd)) :
    Listed (removeConnection { s with registered := Function.update s.registered h.fd none }
      h.prev h.c) (l₁ ++ l₂) := by
  set s' := removeConnection { s with registered := Function.update s.registered h.fd none }
    h.prev h.c with hs'
  have hnode (b : Addr) : (s'.nodes b).fd = (s.nodes b).fd ∧ (s'.nodes b).id = (s.nodes b).id := by
    obtain ⟨hfd, -, hid⟩ := removeConnection_nodes
      { s with registered := Function.update s.registered h.fd none } h.c b h.prev
    exact ⟨hfd, hid⟩
  have hmem {b : Addr} : b ∈ l₁ ++ l₂ ↔ b ∈ l₁ ++ h.c :: l₂ ∧ b ≠ h.c := by
    rw [List.perm_middle.mem_iff, List.mem_cons]
    constructor
    · intro hb
      refine ⟨Or.inr hb, ?_⟩
      rintro rfl
      exact (List.nodup_cons.mp (List.nodup_middle.mp hl.chain.nodup)).1 hb
    · rintro ⟨rfl | hb, hne⟩
      · exact absurd rfl hne
      · exact hb
  have hreg (fd : Fd) : s'.registered fd = if fd = h.fd then none else s.registered fd := by
    change Function.update (Function.update s.registered h.fd none) (s.nodes h.c).fd none fd = _
    rw [hfd, Function.update_idem, Function.update_apply]
  constructor
  · rcases List.eq_nil_or_concat' l₁ with rfl | ⟨m, p, rfl⟩
    · simp only [hs', removeConnection, hprev, List.getLast?_nil]
      exact hl.chain.unlink_head
    · have hchain := hl.chain
      rw [List.append_assoc] at hchain ⊢
      rw [hs', hprev, List.getLast?_concat, removeConnection_next]
      exact hchain.unlink (Function.update_self ..) fun a ha => Function.update_of_ne ha ..
  · intro b
    change b ∈ s.live.erase h.c ↔ _
    rw [Finset.mem_erase, hl.live, hmem, and_comm]
  · intro b hb
    rw [(hnode b).2]
    exact hl.numbered b (hmem.mp hb).1
  · intro b hb c hc heq
    rw [(hnode b).2, (hnode c).2] at heq
    exact hl.ids b (hmem.mp hb).1 c (hmem.mp hc).1 heq
  · intro fd id
    rw [hreg]
    simp only [hnode, hmem]
    split
    · next heq =>
      refine iff_of_false (by simp) ?_
      rintro ⟨b, ⟨hb, hne⟩, hbf, _⟩
      refine hne (hl.fds hb (by simp) ?_)
      rw [hbf, heq, hfd]
    · next hne =>
      rw [hl.registered]
      refine exists_congr fun b => ?_
      constructor
      · rintro ⟨hb, hbf, hbi⟩
        refine ⟨⟨hb, ?_⟩, hbf, hbi⟩
        rintro rfl
        exact hne (hbf.symm.trans hfd)
      · rintro ⟨⟨hb, _⟩, hbf, hbi⟩
        exact ⟨hb, hbf, hbi⟩
  · intro fd hf
    rw [hreg, hl.free fd hf, ite_self]
  · exact hl.listening
  · intro r hr
    have hrep := hl.pending r hr
    cases r with
    | listener => trivial
    | conn fd id =>
      have hne : fd ≠ h.fd := by
        rintro rfl
        exact htaken (List.mem_map.mpr ⟨_, hr, rfl⟩)
      exact (hreg fd).trans ((if_neg hne).trans hrep)
  · exact hl.once

/-! ## Every step keeps the list and the handler's place in it -/

/-- The walk of a broadcast goes on behind `cur`. -/
theorem Listed.broadcasting (hl : Listed s l) (hh : Handles s l h) {cur : Addr} (hcur : cur ∈ l)
    (hst : (s.nodes h.c).state = .established) {buf : List UInt8} (hbuf : buf ≠ []) :
    At s l (.broadcasting h buf (s.next cur)) := by
  obtain ⟨m₁, m₂, rfl⟩ := List.append_of_mem hcur
  exact ⟨hh, hst, hbuf, m₁ ++ [cur], m₂, by simp, hl.chain.link⟩

theorem Listed.offer (hl : Listed s l) (hh : Handles s l h) {cur : Addr} (hcur : cur ∈ l)
    (hst : (s.nodes h.c).state = .established) {buf : List UInt8} (hbuf : buf ≠ [])
    (hne : cur ≠ h.c) (hest : (s.nodes cur).state = .established) (written : ℕ) :
    At s l (offer s h buf cur written) := by
  unfold TlsChatServer.offer
  split
  · next hlt => exact ⟨hh, hst, hlt, hne, hest, hcur⟩
  · exact hl.broadcasting hh hcur hst hbuf

theorem At.moved {p : Pos} (ha : At s l p) (pos : Pos) (calls : List Call) :
    At { s with pos := pos, calls := calls } l p := by
  cases p with
  | dispatch | accepting | finding => exact ha
  | handshaking h | reading h | broadcasting h | writing h =>
    exact ⟨ha.1.moved pos calls, ha.2⟩
  | cleanup h => exact Handles.moved ha pos calls

theorem Invariant.goto (hl : Listed s l) {pos : Pos} (ha : At s l pos) :
    Invariant (s.goto pos) l := ⟨hl.moved pos s.calls, ha.moved pos s.calls⟩

theorem advance_finding (hl : Listed s l) {fd : Fd} {id : ConnId} {prev c : Option Addr}
    (hpos : s.pos = .finding fd id prev c) (ha : At s l (.finding fd id prev c)) :
    Invariant (advance s) l := by
  obtain ⟨hreg, htaken, l₁, l₂, rfl, hprev, hc, a, hal, haf⟩ := ha
  cases l₂ with
  | nil => cases hal
  | cons b l₂ =>
    subst hc
    simp only [advance, hpos, List.head?_cons]
    split
    · next hne =>
      refine Invariant.goto hl ⟨hreg, htaken, l₁ ++ [b], l₂, by simp, by simp, hl.chain.link, a,
        ?_, haf⟩
      rcases List.mem_cons.mp hal with rfl | hal
      · exact absurd haf hne
      · exact hal
    · next hfd =>
      have hfd := not_not.mp hfd
      have hid : (s.nodes b).id = id := by
        have hb := (hl.registered _ _).mpr ⟨b, by simp, hfd, rfl⟩
        exact Option.some.inj (hb.symm.trans hreg)
      have hh : Handles s (l₁ ++ b :: l₂) ⟨fd, id, prev, b⟩ :=
        ⟨htaken, hfd, hid, l₁, l₂, rfl, hprev⟩
      split
      · next hst => exact Invariant.goto hl ⟨hh, hst⟩
      · next hst => exact Invariant.goto hl ⟨hh, hst⟩
      · exact Invariant.goto hl hh

theorem advance_invariant (hi : Invariant s l) : ∃ l', Invariant (advance s) l' := by
  obtain ⟨hl, ha⟩ := hi
  cases hpos : s.pos with
  | dispatch =>
    cases hb : s.batch with
    | nil =>
      refine ⟨l, ?_⟩
      simp only [advance, hpos, hb]
      exact ⟨hl, ha⟩
    | cons r rest =>
      refine ⟨l, ?_⟩
      cases r with
      | listener =>
        simp only [advance, hpos, hb]
        exact ⟨hl.take hb _, trivial⟩
      | conn fd id =>
        simp only [advance, hpos, hb]
        have hreg : s.registered fd = some id := hl.pending (.conn fd id) (by simp [hb])
        have htaken : fd ∉ rest.map (Ready.fd s.listenFd) := by
          have := hl.once
          rw [hb, List.map_cons, List.nodup_cons] at this
          exact this.1
        obtain ⟨a, hal, haf, _⟩ := (hl.registered fd id).mp hreg
        exact ⟨hl.take hb _, hreg, htaken, [], l, rfl, rfl, hl.chain.head, a, hal, haf⟩
  | finding fd id prev c =>
    rw [hpos] at ha
    exact ⟨l, advance_finding hl hpos ha⟩
  | broadcasting h buf cur =>
    rw [hpos] at ha
    obtain ⟨hh, hst, hbuf, m₁, m₂, rfl, rfl⟩ := ha
    refine ⟨m₁ ++ m₂, ?_⟩
    cases m₂ with
    | nil =>
      simp only [advance, hpos, List.head?_nil]
      exact Invariant.goto hl ⟨hh, hst⟩
    | cons cur m₂ =>
      simp only [advance, hpos, List.head?_cons]
      split
      · next hcur => exact Invariant.goto hl (hl.offer hh (by simp) hst hbuf hcur.2 hcur.1 0)
      · exact Invariant.goto hl (hl.broadcasting hh (by simp) hst hbuf)
  | cleanup h =>
    rw [hpos] at ha
    obtain ⟨l₁, l₂, rfl, hprev⟩ := Handles.place ha
    simp only [advance, hpos]
    split
    · exact ⟨l₁ ++ l₂, (hl.remove hprev ha.fd ha.taken).moved _ _, trivial⟩
    · exact ⟨l₁ ++ h.c :: l₂, Invariant.goto hl trivial⟩
  | accepting | handshaking | reading | writing =>
    refine ⟨l, ?_⟩
    simp only [advance, hpos]
    exact ⟨hl, ha⟩

theorem step_invariant {e : Event} (hi : Invariant s l) (he : Enabled s e) :
    ∃ l', Invariant (next s e) l' := by
  obtain ⟨hl, ha⟩ := hi
  cases e with
  | poll ready =>
    refine ⟨l, hl.poll he, ?_⟩
    change At _ l s.pos
    rw [he.1]
    trivial
  | advance => exact advance_invariant ⟨hl, ha⟩
  | accept fd a =>
    obtain ⟨hpos, hr, hf, hlive⟩ := he
    refine ⟨a :: l, hl.accept hr hf hlive, ?_⟩
    change At _ _ s.pos
    rw [hpos]
    trivial
  | acceptFailed => exact ⟨l, Invariant.goto hl trivial⟩
  | sslAccept r =>
    refine ⟨l, ?_⟩
    cases hpos : s.pos with
    | handshaking h =>
      rw [hpos] at ha
      obtain ⟨hh, hst⟩ := ha
      have hl' := hl.moved s.pos (s.calls ++ [.accept (s.nodes h.c).id r])
      have hh' := hh.moved s.pos (s.calls ++ [.accept (s.nodes h.c).id r])
      simp only [next, hpos]
      cases r with
      | done => exact Invariant.goto (hl'.setState h.c .established) trivial
      | wantRead | wantWrite => exact Invariant.goto hl' trivial
      | fatal =>
        exact Invariant.goto (hl'.setState h.c .closed)
          (hh'.setState h.c .closed : At _ _ (.cleanup h))
    | _ => simp only [Enabled, hpos] at he
  | sslRead r =>
    refine ⟨l, ?_⟩
    cases hpos : s.pos with
    | reading h =>
      rw [hpos] at ha
      obtain ⟨hh, hst⟩ := ha
      have hl' := hl.moved s.pos (s.calls ++ [.read (s.nodes h.c).id r])
      have hh' := hh.moved s.pos (s.calls ++ [.read (s.nodes h.c).id r])
      simp only [Enabled, hpos] at he
      simp only [next, hpos]
      cases r with
      | data bytes => exact Invariant.goto hl' ⟨hh', hst, he.1, [], l, rfl, hl'.chain.head⟩
      | wantRead | wantWrite => exact Invariant.goto hl' (hh' : At _ _ (.cleanup h))
      | zeroReturn | fatal =>
        exact Invariant.goto (hl'.setState h.c .closed)
          (hh'.setState h.c .closed : At _ _ (.cleanup h))
    | _ => simp only [Enabled, hpos] at he
  | sslWrite r =>
    refine ⟨l, ?_⟩
    cases hpos : s.pos with
    | writing h buf cur written =>
      rw [hpos] at ha
      obtain ⟨hh, hst, hlt, hne, hest, hcur⟩ := ha
      have hbuf : buf ≠ [] := by
        rintro rfl
        exact absurd hlt (Nat.not_lt_zero _)
      have hl' := hl.moved s.pos (s.calls ++ [.write (s.nodes cur).id buf written r])
      have hh' := hh.moved s.pos (s.calls ++ [.write (s.nodes cur).id buf written r])
      simp only [next, hpos]
      cases r with
      | wrote n => exact Invariant.goto hl' (hl'.offer hh' hcur hst hbuf hne hest _)
      | wantRead | wantWrite => exact Invariant.goto hl' (hl'.broadcasting hh' hcur hst hbuf)
      | fatal =>
        have hl'' := hl'.setState cur .closed
        refine Invariant.goto hl'' ?_
        rw [← setState_next _ cur .closed]
        refine hl''.broadcasting (hh'.setState cur .closed) hcur ?_ hbuf
        rw [setState_state, if_neg hne.symm]
        exact hst
    | _ => simp only [Enabled, hpos] at he

theorem initial_invariant (listenFd : Fd) (reserved : Finset Fd) :
    Invariant (initial listenFd reserved) [] := by
  refine ⟨⟨rfl, by simp [initial], by simp, by simp, by simp [initial], fun _ _ => rfl,
    Finset.mem_insert_self _ _, by simp [initial], by simp [initial]⟩, trivial⟩

theorem run_invariant {listenFd : Fd} {reserved : Finset Fd} {es : List Event}
    (h : (machine listenFd reserved).Valid es) :
    ∃ l, Invariant ((machine listenFd reserved).run es) l :=
  Machine.invariant (I := fun s => ∃ l, Invariant s l) ⟨[], initial_invariant listenFd reserved⟩
    (fun _ _ ⟨_, hi⟩ he => step_invariant hi he) h

/-! ## The list, the epoll set and the events in every run -/

theorem At.handles {p : Pos} (ha : At s l p) (hp : p.handler = some h) : Handles s l h := by
  cases p with
  | dispatch | accepting | finding => cases hp
  | handshaking | reading | broadcasting | writing =>
    obtain rfl := Option.some.inj hp
    exact ha.1
  | cleanup =>
    obtain rfl := Option.some.inj hp
    exact ha

/-- The nodes in the order of the list. Each is allocated and nothing else is, no two have
one descriptor, and these are the registered ones. An event still in the batch is for a
registered connection; the search for it does not run off the list, and finds it with the node
before it, so that the cleanup unlinks and frees that one. -/
structure Consistent (s : State) (l : List Addr) : Prop where
  chain : Chain s.next s.connections l
  live : ∀ a, a ∈ s.live ↔ a ∈ l
  distinct : (l.map fun a => (s.nodes a).fd).Nodup
  registered : ∀ fd, s.registered fd ≠ none ↔ fd ∈ l.map fun a => (s.nodes a).fd
  listener : s.listenFd ∉ l.map fun a => (s.nodes a).fd
  pending : ∀ fd id, .conn fd id ∈ s.batch → ∃ a ∈ l, (s.nodes a).fd = fd ∧ (s.nodes a).id = id
  known : ∀ fd id prev, s.pos ≠ .finding fd id prev none
  found : ∀ h, s.pos.handler = some h → (s.nodes h.c).fd = h.fd ∧ (s.nodes h.c).id = h.id ∧
    ∃ l₁ l₂, l = l₁ ++ h.c :: l₂ ∧ h.prev = l₁.getLast? ∧
      (s.pos = .cleanup h → (s.nodes h.c).state = .closed →
        Chain (advance s).next (advance s).connections (l₁ ++ l₂) ∧
          (advance s).live = s.live.erase h.c)

theorem Invariant.consistent (hi : Invariant s l) : Consistent s l := by
  obtain ⟨hl, ha⟩ := hi
  have hreg (fd : Fd) : s.registered fd ≠ none ↔ fd ∈ l.map fun a => (s.nodes a).fd := by
    rw [Option.ne_none_iff_exists', List.mem_map]
    constructor
    · rintro ⟨id, hid⟩
      obtain ⟨a, hal, haf, _⟩ := (hl.registered fd id).mp hid
      exact ⟨a, hal, haf⟩
    · rintro ⟨a, hal, haf⟩
      exact ⟨(s.nodes a).id, (hl.registered fd _).mpr ⟨a, hal, haf, rfl⟩⟩
  refine ⟨hl.chain, hl.live, hl.fds_nodup, hreg, ?_, ?_, ?_, ?_⟩
  · rw [← hreg]
    exact not_not.mpr (hl.free _ hl.listening)
  · intro fd id hm
    exact (hl.registered fd id).mp (hl.pending _ hm)
  · intro fd id prev hpos
    rw [hpos] at ha
    obtain ⟨_, _, l₁, l₂, _, _, hc, a, hal, _⟩ := ha
    rw [List.head?_eq_none_iff.mp hc.symm] at hal
    cases hal
  · intro h hp
    have hh := ha.handles hp
    obtain ⟨l₁, l₂, rfl, hprev⟩ := hh.place
    refine ⟨hh.fd, hh.id, l₁, l₂, rfl, hprev, fun hpos hst => ?_⟩
    simp only [advance, hpos, if_pos hst]
    exact ⟨(hl.remove hprev hh.fd hh.taken).chain, rfl⟩

/-- In every run, whatever is accepted, removed and given a recycled descriptor within a
batch. -/
theorem connections_consistent (listenFd : Fd) (reserved : Finset Fd) (es : List Event)
    (h : (machine listenFd reserved).Valid es) :
    ∃ l, Consistent ((machine listenFd reserved).run es) l := by
  obtain ⟨l, hi⟩ := run_invariant h
  exact ⟨l, hi.consistent⟩

/-- The second of three clients fails its handshake; its descriptor and its memory go to a
new client accepted before the rest of the batch is handled. -/
theorem connections_consistent_recycled :
    let es : List Event := [.poll [.listener], .advance, .accept 5 50, .accept 6 60,
      .accept 7 70, .acceptFailed, .poll [.conn 6 1, .listener, .conn 5 0], .advance, .advance,
      .advance, .sslAccept .fatal, .advance, .advance, .accept 6 60, .acceptFailed, .advance,
      .advance, .advance, .advance]
    let s := (machine 3 {0, 1, 2, 4}).run es
    s.pos = .handshaking ⟨5, 0, some 70, 50⟩ ∧ ∃ l, Consistent s l := by
  exact ⟨by decide, connections_consistent 3 {0, 1, 2, 4} _ (by decide)⟩

end TlsConnections
