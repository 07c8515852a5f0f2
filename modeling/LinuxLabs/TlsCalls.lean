import LinuxLabs.TlsConnections

/-! # The TLS calls of the chat server (lab 16)
What a connection may be asked next is read off the calls made so far. The state the code
keeps for it agrees with that, so no call comes too early or too late, and every chunk
read is offered to the right connections. -/
namespace TlsCalls

open Execution LinkedList TlsChatServer TlsConnections

/-! ## What a log of calls says about a connection -/

def callee : Call → ConnId
  | .accept j _ | .read j _ | .write j _ _ _ => j

/-- The call is on `j` and fails for good, or finds it closed. -/
def Ends (j : ConnId) : Call → Prop
  | .accept i .fatal | .read i .zeroReturn | .read i .fatal | .write i _ _ .fatal => i = j
  | _ => False

instance (j : ConnId) : DecidablePred (Ends j) := by
  intro c
  unfold Ends
  split <;> infer_instance

def stateAfter (calls : List Call) (j : ConnId) : ConnState :=
  if ∃ c ∈ calls, Ends j c then .closed
  else if .accept j .done ∈ calls then .established
  else .handshake

/-- The handshake goes on until it returns 1, data flows from then on, and nothing after an
end. -/
def Allowed (calls : List Call) : Call → Prop
  | .accept j _ => .accept j .done ∉ calls ∧ ∀ c ∈ calls, ¬ Ends j c
  | .read j _ | .write j _ _ _ => .accept j .done ∈ calls ∧ ∀ c ∈ calls, ¬ Ends j c

/-- Each call stands in the relation `P` to those before it. -/
def Throughout (P : List Call → Call → Prop) (calls : List Call) : Prop :=
  ∀ pre c post, calls = pre ++ c :: post → P pre c

def Forward : ConnState → ConnState → Prop
  | .handshake, _ => True
  | .established, st => st ≠ .handshake
  | .closed, st => st = .closed

variable {calls pre post : List Call} {c : Call} {i j : ConnId}

theorem Ends.callee (h : Ends j c) : callee c = j := by
  unfold Ends at h
  split at h <;> first | exact h | exact h.elim

theorem stateAfter_handshake : stateAfter calls j = .handshake ↔
    .accept j .done ∉ calls ∧ ∀ c ∈ calls, ¬ Ends j c := by
  unfold stateAfter
  split
  · next h => simpa using fun _ => h
  · next h =>
    push Not at h
    split <;> simp_all

theorem stateAfter_established : stateAfter calls j = .established ↔
    .accept j .done ∈ calls ∧ ∀ c ∈ calls, ¬ Ends j c := by
  unfold stateAfter
  split
  · next h => simpa using fun _ => h
  · next h =>
    push Not at h
    split <;> simp_all

theorem stateAfter_closed : stateAfter calls j = .closed ↔ ∃ c ∈ calls, Ends j c := by
  unfold stateAfter
  split
  · next h => simpa using h
  · next h =>
    refine iff_of_false ?_ h
    split <;> simp

theorem stateAfter_forward : Forward (stateAfter pre j) (stateAfter (pre ++ post) j) := by
  cases h : stateAfter pre j with
  | handshake => trivial
  | established =>
    intro hh
    exact (stateAfter_handshake.mp hh).1 (List.mem_append_left _ (stateAfter_established.mp h).1)
  | closed =>
    obtain ⟨c, hc, he⟩ := stateAfter_closed.mp h
    exact stateAfter_closed.mpr ⟨c, List.mem_append_left _ hc, he⟩

theorem stateAfter_kept (he : ¬ Ends j c) (ha : .accept j .done ≠ c) :
    stateAfter (calls ++ [c]) j = stateAfter calls j := by
  simp [stateAfter, or_and_right, exists_or, he, ha]

theorem stateAfter_ended (he : Ends j c) : stateAfter (calls ++ [c]) j = .closed :=
  stateAfter_closed.mpr ⟨c, List.mem_append_right _ (List.mem_singleton_self c), he⟩

/-- A call on another connection says nothing about `j`. -/
theorem stateAfter_other (hne : callee c ≠ j) :
    stateAfter (calls ++ [c]) j = stateAfter calls j := by
  refine stateAfter_kept (fun h => hne h.callee) ?_
  rintro rfl
  exact hne rfl

theorem throughout_nil {P : List Call → Call → Prop} : Throughout P [] := by
  intro pre c post heq
  cases pre <;> cases heq

theorem throughout_concat {P : List Call → Call → Prop} :
    Throughout P (calls ++ [c]) ↔ Throughout P calls ∧ P calls c := by
  constructor
  · intro h
    refine ⟨fun pre d post heq => h pre d (post ++ [c]) (by simp [heq]), h calls c [] rfl⟩
  · rintro ⟨h, hc⟩ pre d post heq
    rcases List.eq_nil_or_concat' post with rfl | ⟨post, e, rfl⟩
    · obtain ⟨rfl, hd⟩ := List.append_inj' heq rfl
      obtain rfl := List.singleton_inj.mp hd
      exact hc
    · rw [← List.cons_append, ← List.append_assoc] at heq
      exact h pre d post (List.append_inj' heq rfl).1

/-! ## The code keeps the state that its calls amount to -/

structure Logged (s : State) : Prop where
  states : ∀ a ∈ s.live, (s.nodes a).state = stateAfter s.calls (s.nodes a).id
  made : ∀ c ∈ s.calls, callee c < s.accepted
  present : ∀ j, stateAfter s.calls j = .established → ∃ a ∈ s.live, (s.nodes a).id = j
  ordered : Throughout Allowed s.calls

variable {s : State} {l : List Addr} {h : Handler}

theorem Logged.goto (hg : Logged s) (pos : Pos) : Logged (s.goto pos) :=
  ⟨hg.states, hg.made, hg.present, hg.ordered⟩

theorem setState_self (s : State) (a : Addr) : s.setState a (s.nodes a).state = s := by
  simp [State.setState]

/-- A call on the connection at `a`, whose state is set to what it then amounts to. -/
theorem Logged.called (hg : Logged s) (hl : Listed s l) {a : Addr} (ha : a ∈ l) (c : Call)
    (hc : callee c = (s.nodes a).id) (hallow : Allowed s.calls c) {st : ConnState}
    (hst : stateAfter (s.calls ++ [c]) (s.nodes a).id = st) :
    Logged ((s.record c).setState a st) := by
  have hlive := (hl.live a).mpr ha
  constructor
  · intro b hb
    rw [setState_state, setState_id]
    by_cases heq : b = a
    · subst heq
      rw [if_pos rfl]
      exact hst.symm
    · have hid : callee c ≠ (s.nodes b).id := by
        rw [hc]
        exact fun hid => heq (hl.ids a ha b ((hl.live b).mp hb) hid).symm
      rw [if_neg heq]
      exact (hg.states b hb).trans (stateAfter_other hid).symm
  · intro d hd
    rcases List.mem_append.mp hd with hd | hd
    · exact hg.made d hd
    · obtain rfl := List.mem_singleton.mp hd
      rw [hc]
      exact hl.numbered a ha
  · intro j hj
    simp only [setState_id]
    by_cases heq : callee c = j
    · exact ⟨a, hlive, hc.symm.trans heq⟩
    · exact hg.present j ((stateAfter_other heq).symm.trans hj)
  · exact throughout_concat.mpr ⟨hg.ordered, hallow⟩

/-- A call that leaves the state as it is. -/
theorem Logged.kept (hg : Logged s) (hl : Listed s l) {a : Addr} (ha : a ∈ l) (c : Call)
    (hc : callee c = (s.nodes a).id) (hallow : Allowed s.calls c) (he : ¬ Ends (s.nodes a).id c)
    (hd : .accept (s.nodes a).id .done ≠ c) : Logged (s.record c) := by
  have hst : stateAfter (s.calls ++ [c]) (s.nodes a).id = ((s.record c).nodes a).state :=
    (stateAfter_kept he hd).trans (hg.states a ((hl.live a).mpr ha)).symm
  rw [← setState_self (s.record c) a]
  exact hg.called hl ha c hc hallow hst

theorem Logged.accept (hg : Logged s) {fd : Fd} {a : Addr} (ha : a ∉ s.live) :
    Logged (addConnection s fd a) := by
  have hnew : (addConnection s fd a).nodes a = ⟨fd, .handshake, s.connections, s.accepted⟩ :=
    Function.update_self ..
  have hold : ∀ b ∈ s.live, (addConnection s fd a).nodes b = s.nodes b := by
    intro b hb
    refine Function.update_of_ne ?_ ..
    rintro rfl
    exact ha hb
  constructor
  · intro b hb
    rcases Finset.mem_insert.mp hb with rfl | hb
    · rw [hnew]
      refine (stateAfter_handshake.mpr ⟨fun hm => ?_, fun c hc he => ?_⟩).symm
      · exact (hg.made _ hm).ne rfl
      · exact (hg.made c hc).ne he.callee
    · rw [hold b hb]
      exact hg.states b hb
  · exact fun c hc => Nat.lt_succ_of_lt (hg.made c hc)
  · intro j hj
    obtain ⟨b, hb, hid⟩ := hg.present j hj
    refine ⟨b, Finset.mem_insert_of_mem hb, ?_⟩
    rw [hold b hb]
    exact hid
  · exact hg.ordered

/-- Only a connection that has ended is removed. -/
theorem Logged.remove (hg : Logged s) {reg : Fd → Option ConnId} {prev : Option Addr} {c : Addr}
    (hc : (s.nodes c).state = .closed) :
    Logged (removeConnection { s with registered := reg } prev c) := by
  have hnode (b : Addr) := (removeConnection_nodes { s with registered := reg } c b prev).2
  constructor
  · intro b hb
    rw [(hnode b).1, (hnode b).2]
    exact hg.states b (Finset.mem_of_mem_erase hb)
  · exact hg.made
  · intro j hj
    obtain ⟨b, hb, hid⟩ := hg.present j hj
    refine ⟨b, Finset.mem_erase.mpr ⟨?_, hb⟩, (hnode b).2.trans hid⟩
    rintro rfl
    rw [hg.states b hb, hid] at hc
    cases hj.symm.trans hc
  · exact hg.ordered

theorem advance_logged (hg : Logged s) : Logged (advance s) := by
  unfold advance
  split
  · split <;> exact ⟨hg.states, hg.made, hg.present, hg.ordered⟩
  · exact ⟨hg.states, hg.made, hg.present, hg.ordered⟩
  · split
    · exact hg.goto _
    · split <;> exact hg.goto _
  · exact hg.goto _
  · split <;> exact hg.goto _
  · split
    · next hc => exact (hg.remove hc).goto _
    · exact hg.goto _
  · exact hg

theorem step_logged (hi : Invariant s l) (hg : Logged s) {e : Event} (he : Enabled s e) :
    Logged (next s e) := by
  obtain ⟨hl, ha⟩ := hi
  cases e with
  | poll ready => exact ⟨hg.states, hg.made, hg.present, hg.ordered⟩
  | advance => exact advance_logged hg
  | accept fd a => exact hg.accept he.2.2.2
  | acceptFailed => exact hg.goto _
  | sslAccept r =>
    cases hpos : s.pos with
    | handshaking h =>
      rw [hpos] at ha
      obtain ⟨hh, hst⟩ := ha
      have hallow : Allowed s.calls (.accept (s.nodes h.c).id r) := by
        rw [hg.states h.c ((hl.live _).mpr hh.mem)] at hst
        exact stateAfter_handshake.mp hst
      simp only [next, hpos]
      cases r with
      | done =>
        refine (hg.called hl hh.mem _ rfl hallow ?_).goto _
        refine stateAfter_established.mpr ⟨by simp, fun c hc => ?_⟩
        rcases List.mem_append.mp hc with hc | hc
        · exact hallow.2 c hc
        · obtain rfl := List.mem_singleton.mp hc
          exact id
      | wantRead | wantWrite => exact (hg.kept hl hh.mem _ rfl hallow id (by simp)).goto _
      | fatal =>
        exact (hg.called hl hh.mem _ rfl hallow (stateAfter_ended rfl)).goto _
    | _ => simp only [Enabled, hpos] at he
  | sslRead r =>
    cases hpos : s.pos with
    | reading h =>
      rw [hpos] at ha
      obtain ⟨hh, hst⟩ := ha
      have hallow : Allowed s.calls (.read (s.nodes h.c).id r) := by
        rw [hg.states h.c ((hl.live _).mpr hh.mem)] at hst
        exact stateAfter_established.mp hst
      simp only [next, hpos]
      cases r with
      | data | wantRead | wantWrite =>
        exact (hg.kept hl hh.mem _ rfl hallow id (by simp)).goto _
      | zeroReturn | fatal =>
        exact (hg.called hl hh.mem _ rfl hallow (stateAfter_ended rfl)).goto _
    | _ => simp only [Enabled, hpos] at he
  | sslWrite r =>
    cases hpos : s.pos with
    | writing h buf cur written =>
      rw [hpos] at ha
      obtain ⟨hh, _, _, _, hest, hcur⟩ := ha
      have hallow : Allowed s.calls (.write (s.nodes cur).id buf written r) := by
        rw [hg.states cur ((hl.live _).mpr hcur)] at hest
        exact stateAfter_established.mp hest
      simp only [next, hpos]
      cases r with
      | wrote | wantRead | wantWrite =>
        exact (hg.kept hl hcur _ rfl hallow id (by simp)).goto _
      | fatal =>
        exact (hg.called hl hcur _ rfl hallow (stateAfter_ended rfl)).goto _
    | _ => simp only [Enabled, hpos] at he

/-! ## Where a step begins, continues and ends a broadcast -/

def isWrite : Call → Bool
  | .write .. => true
  | .accept .. | .read .. => false

def Broadcasting : Pos → Prop
  | .broadcasting .. | .writing .. => True
  | _ => False

/-- A step outside of broadcasts, with at most one call, or one turn of the loops of
`broadcast_message`. -/
inductive Turn (s : State) : Event → State → Prop
  | elsewhere {e t} (before : ¬ Broadcasting s.pos) (after : ¬ Broadcasting t.pos)
    (calls : t.calls = s.calls) : Turn s e t
  | called {e t c} (before : ¬ Broadcasting s.pos) (after : ¬ Broadcasting t.pos)
    (nowrite : isWrite c = false) (nodata : ∀ i chunk, c ≠ .read i (.data chunk))
    (calls : t.calls = s.calls ++ [c]) : Turn s e t
  | read {h buf} (pos : s.pos = .reading h) : Turn s (.sslRead (.data buf))
      ((s.record (.read (s.nodes h.c).id (.data buf))).goto (.broadcasting h buf s.connections))
  | finished {h buf} (pos : s.pos = .broadcasting h buf none) :
      Turn s .advance (s.goto (.reading h))
  | reached {h buf cur} (pos : s.pos = .broadcasting h buf (some cur))
    (other : (s.nodes cur).state = .established ∧ cur ≠ h.c) :
      Turn s .advance (s.goto (offer s h buf cur 0))
  | passed {h buf cur} (pos : s.pos = .broadcasting h buf (some cur))
    (skip : ¬ ((s.nodes cur).state = .established ∧ cur ≠ h.c)) :
      Turn s .advance (s.goto (.broadcasting h buf (s.next cur)))
  | wrote {h buf cur written n} (pos : s.pos = .writing h buf cur written) (some : 0 < n) :
      Turn s (.sslWrite (.wrote n))
        ((s.record (.write (s.nodes cur).id buf written (.wrote n))).goto
          (offer s h buf cur (written + n)))
  | refused {h buf cur written r} (pos : s.pos = .writing h buf cur written)
    (want : r = .wantRead ∨ r = .wantWrite) :
      Turn s (.sslWrite r)
        ((s.record (.write (s.nodes cur).id buf written r)).goto
          (.broadcasting h buf (s.next cur)))
  | failed {h buf cur written} (pos : s.pos = .writing h buf cur written) :
      Turn s (.sslWrite .fatal)
        (((s.record (.write (s.nodes cur).id buf written .fatal)).setState cur .closed).goto
          (.broadcasting h buf (s.next cur)))

theorem advance_turn (he : Enabled s .advance) : Turn s .advance (advance s) := by
  cases hpos : s.pos with
  | broadcasting h buf cur =>
    cases cur with
    | none =>
      simp only [advance, hpos]
      exact .finished hpos
    | some cur =>
      simp only [advance, hpos]
      split
      · next hc => exact .reached hpos hc
      · next hc => exact .passed hpos hc
  | dispatch =>
    have before : ¬ Broadcasting s.pos := by
      rw [hpos]
      exact id
    simp only [advance, hpos]
    split
    · exact .elsewhere before before rfl
    · exact .elsewhere before id rfl
    · exact .elsewhere before id rfl
  | finding fd id' prev c =>
    have before : ¬ Broadcasting s.pos := by
      rw [hpos]
      exact id
    cases c with
    | none =>
      simp only [advance, hpos]
      exact .elsewhere before id rfl
    | some c =>
      simp only [advance, hpos]
      split
      · exact .elsewhere before id rfl
      · split <;> exact .elsewhere before id rfl
  | cleanup h =>
    have before : ¬ Broadcasting s.pos := by
      rw [hpos]
      exact id
    simp only [advance, hpos]
    split <;> exact .elsewhere before id rfl
  | accepting | handshaking | reading | writing => simp only [Enabled, hpos] at he

theorem step_turn {e : Event} (he : Enabled s e) : Turn s e (next s e) := by
  cases e with
  | poll ready =>
    have before : ¬ Broadcasting s.pos := by
      rw [he.1]
      exact id
    exact .elsewhere before before rfl
  | advance => exact advance_turn he
  | accept fd a =>
    have before : ¬ Broadcasting s.pos := by
      rw [he.1]
      exact id
    exact .elsewhere before before rfl
  | acceptFailed =>
    have before : ¬ Broadcasting s.pos := by
      rw [he]
      exact id
    exact .elsewhere before id rfl
  | sslAccept r =>
    cases hpos : s.pos with
    | handshaking h =>
      have before : ¬ Broadcasting s.pos := by
        rw [hpos]
        exact id
      simp only [next, hpos]
      cases r <;>
        exact .called (c := .accept _ _) before id rfl (fun _ _ => Call.noConfusion) rfl
    | _ => simp only [Enabled, hpos] at he
  | sslRead r =>
    cases hpos : s.pos with
    | reading h =>
      have before : ¬ Broadcasting s.pos := by
        rw [hpos]
        exact id
      simp only [next, hpos]
      cases r with
      | data buf => exact .read hpos
      | _ => exact .called (c := .read _ _) before id rfl (fun _ _ h => by cases h) rfl
    | _ => simp only [Enabled, hpos] at he
  | sslWrite r =>
    cases hpos : s.pos with
    | writing h buf cur written =>
      simp only [Enabled, hpos] at he
      simp only [next, hpos]
      cases r with
      | wrote n => exact .wrote hpos he.1
      | wantRead => exact .refused hpos (Or.inl rfl)
      | wantWrite => exact .refused hpos (Or.inr rfl)
      | fatal => exact .failed hpos
    | _ => simp only [Enabled, hpos] at he

end TlsCalls
