import LinuxLabs.TlsCalls

/-! # Repeating refused writes (lab 16)
The TLS library wants a write that it refused to be repeated with the same bytes. The server
keeps none of them: it writes what the next broadcast brings. -/
namespace TlsRetry

open Execution LinkedList TlsChatServer TlsConnections TlsCalls

/-! ## What a log of calls leaves to be repeated -/

def outstanding (j : ConnId) (o : Option (List UInt8)) : Call → Option (List UInt8)
  | .write i buf written r =>
    if i = j then
      match r with
      | .wantRead | .wantWrite => some (buf.drop written)
      | .wrote _ | .fatal => none
    else o
  | .accept .. | .read .. => o

/-- The bytes of the last write on `j`, if it was refused. -/
def refused (calls : List Call) (j : ConnId) : Option (List UInt8) :=
  calls.foldl (outstanding j) none

def Repeats (calls : List Call) : Call → Prop
  | .write j buf written _ => ∀ b ∈ refused calls j, buf.drop written = b
  | .accept .. | .read .. => True

/-- A chunk is read only while no refused write to another established connection stands out
with different bytes. -/
def SameMessage (s : State) : Event → Prop
  | .sslRead (.data buf) =>
    match s.pos with
    | .reading h => ∀ a ∈ s.live, (s.nodes a).state = .established → a ≠ h.c →
      ∀ b ∈ refused s.calls (s.nodes a).id, buf = b
    | _ => True
  | _ => True

instance (s : State) (e : Event) : Decidable (SameMessage s e) := by
  casesm* Event, ReadResult <;> simp only [SameMessage]
  case sslRead.data =>
    generalize s.pos = pos
    casesm Pos <;> infer_instance
  all_goals infer_instance

variable {calls : List Call} {c : Call} {j : ConnId} {s : State} {l : List Addr} {h : Handler}

theorem refused_concat : refused (calls ++ [c]) j = outstanding j (refused calls j) c :=
  List.foldl_append

theorem refused_quiet (hc : isWrite c = false) : refused (calls ++ [c]) j = refused calls j := by
  rw [refused_concat]
  cases c with
  | accept | read => rfl
  | write => cases hc

theorem refused_other (hne : callee c ≠ j) : refused (calls ++ [c]) j = refused calls j := by
  rw [refused_concat]
  cases c with
  | accept | read => rfl
  | write i buf written r => exact if_neg hne

theorem repeats_quiet (hc : isWrite c = false) : Repeats calls c := by
  cases c with
  | accept | read => trivial
  | write => cases hc

/-! ## A broadcast repeats what was refused if that is its own chunk -/

/-- What the connections of `m` refused is the chunk they are about to be offered. -/
def Due (s : State) (h : Handler) (buf : List UInt8) (m : List Addr) : Prop :=
  ∀ a ∈ m, (s.nodes a).state = .established → a ≠ h.c →
    ∀ b ∈ refused s.calls (s.nodes a).id, buf = b

def Retrying (s : State) : Pos → Prop
  | .broadcasting h buf cur => ∃ m, Chain s.next cur m ∧ Due s h buf m
  | .writing h buf cur written => (∀ b ∈ refused s.calls (s.nodes cur).id, buf.drop written = b) ∧
    ∃ m, Chain s.next (some cur) (cur :: m) ∧ Due s h buf m
  | _ => True

theorem retrying_elsewhere {p : Pos} (hp : ¬ Broadcasting p) : Retrying s p := by
  cases p with
  | broadcasting | writing => exact absurd trivial hp
  | _ => trivial

theorem Retrying.offer {buf : List UInt8} {cur : Addr} {written : ℕ} {m : List Addr}
    (hm : Chain s.next (some cur) (cur :: m)) (hd : Due s h buf m)
    (hr : ∀ b ∈ refused s.calls (s.nodes cur).id, buf.drop written = b) :
    Retrying s (offer s h buf cur written) := by
  unfold TlsChatServer.offer
  split
  · exact ⟨hr, m, hm, hd⟩
  · exact ⟨m, hm.2, hd⟩

/-- A write at `cur` changes nothing for the connections ahead. -/
theorem Due.wrote (hl : Listed s l) {buf : List UInt8} {cur : Addr} {m : List Addr}
    (hcur : cur ∈ l) (hm : Chain s.next (some cur) (cur :: m)) (hd : Due s h buf m)
    (written : ℕ) (r : WriteResult) :
    Due (s.record (.write (s.nodes cur).id buf written r)) h buf m := by
  intro a ha hst hne b hb
  have hid : (s.nodes cur).id ≠ (s.nodes a).id := by
    intro heq
    obtain rfl := hl.ids cur hcur a (hl.ahead hcur hm a ha) heq
    exact (List.nodup_cons.mp hm.nodup).1 ha
  refine hd a ha hst hne b ?_
  rw [← refused_other (c := .write (s.nodes cur).id buf written r) hid]
  exact hb

theorem step_retrying (hi : Invariant s l) (hr : Retrying s s.pos) {e : Event}
    (he : Enabled s e) (hm : SameMessage s e) : Retrying (next s e) (next s e).pos := by
  obtain ⟨hl, ha⟩ := hi
  have hturn := step_turn he
  generalize next s e = t at hturn ⊢
  cases hturn with
  | elsewhere before after => exact retrying_elsewhere after
  | called before after => exact retrying_elsewhere after
  | @read h buf pos =>
    refine ⟨l, hl.chain, fun a ha hst hne b hb => ?_⟩
    simp only [SameMessage, pos] at hm
    refine hm a ((hl.live a).mpr ha) hst hne b ?_
    rw [← refused_quiet (c := .read (s.nodes h.c).id (.data buf)) rfl]
    exact hb
  | finished pos => trivial
  | @reached h buf cur pos other =>
    rw [pos] at hr
    obtain ⟨m, hm, hd⟩ := hr
    obtain ⟨m, rfl⟩ := hm.cons
    exact Retrying.offer (s := s.goto _) hm (fun a ha => hd a (List.mem_cons_of_mem _ ha))
      (hd cur List.mem_cons_self other.1 other.2)
  | @passed h buf cur pos skip =>
    rw [pos] at hr
    obtain ⟨m, hm, hd⟩ := hr
    obtain ⟨m, rfl⟩ := hm.cons
    exact ⟨m, hm.2, fun a ha => hd a (List.mem_cons_of_mem _ ha)⟩
  | @wrote h buf cur written n pos hn =>
    rw [pos] at hr ha
    obtain ⟨_, m, hm, hd⟩ := hr
    obtain ⟨_, _, _, _, _, hcur⟩ := ha
    refine Retrying.offer (s := (s.record _).goto _) hm (hd.wrote hl hcur hm written _) ?_
    intro b hb
    change b ∈ refused (s.calls ++ [_]) (s.nodes cur).id at hb
    rw [refused_concat, outstanding, if_pos rfl] at hb
    cases hb
  | @refused h buf cur written r pos =>
    rw [pos] at hr ha
    obtain ⟨_, m, hm, hd⟩ := hr
    obtain ⟨_, _, _, _, _, hcur⟩ := ha
    exact ⟨m, hm.2, hd.wrote hl hcur hm written r⟩
  | @failed h buf cur written pos =>
    rw [pos] at hr ha
    obtain ⟨_, m, hm, hd⟩ := hr
    obtain ⟨_, _, _, _, _, hcur⟩ := ha
    refine ⟨m, ?_, fun a ha hst hne b hb => ?_⟩
    · change Chain (State.setState _ cur .closed).next _ m
      rw [setState_next]
      exact hm.2
    · have hac : a ≠ cur := by
        rintro rfl
        exact (List.nodup_cons.mp hm.nodup).1 ha
      change ((State.setState _ cur .closed).nodes a).state = _ at hst
      rw [setState_state, if_neg hac] at hst
      change b ∈ TlsRetry.refused _ ((State.setState _ cur .closed).nodes a).id at hb
      rw [setState_id] at hb
      exact hd.wrote hl hcur hm written .fatal a ha hst hne b hb

theorem step_repeats (hr : Retrying s s.pos) (hc : Throughout Repeats s.calls) {e : Event}
    (he : Enabled s e) : Throughout Repeats (next s e).calls := by
  have hturn := step_turn he
  generalize next s e = t at hturn ⊢
  cases hturn with
  | elsewhere _ _ calls => exact calls ▸ hc
  | called _ _ nowrite _ calls =>
    rw [calls]
    exact throughout_concat.mpr ⟨hc, repeats_quiet nowrite⟩
  | read => exact throughout_concat.mpr ⟨hc, trivial⟩
  | finished | reached | passed => exact hc
  | wrote pos | refused pos | failed pos =>
    rw [pos] at hr
    exact throughout_concat.mpr ⟨hc, hr.1⟩

/-- What the library is documented to do: a write fails for good only on a connection that is
gone, or if it does not repeat the one that was refused before it. -/
def FailsOnlyGone (gone : List Call → ConnId → Prop) (calls : List Call) : Prop :=
  ∀ pre j buf written post, calls = pre ++ .write j buf written .fatal :: post →
    gone pre j ∨ ¬ Repeats pre (.write j buf written .fatal)

/-- The writes keep to the rule, so the library closes no connection for a peer that is slow. -/
structure Retried (calls : List Call) : Prop where
  repeats : Throughout Repeats calls
  kept : ∀ gone, FailsOnlyGone gone calls → ∀ pre j buf written post,
    calls = pre ++ .write j buf written .fatal :: post → gone pre j

theorem retried_of_repeats (h : Throughout Repeats calls) : Retried calls := by
  refine ⟨h, fun gone hlibrary pre j buf written post heq => ?_⟩
  have hrepeats := h pre _ post heq
  exact (hlibrary pre j buf written post heq).resolve_right (not_not.mpr hrepeats)

/-- Every write repeats what was last refused on its connection in the runs in which no chunk
is read while an established connection waits for different bytes. -/
theorem writes_repeat (listenFd : Fd) (reserved : Finset Fd) (es : List Event)
    (h : (machine listenFd reserved).Valid es)
    (hm : (machine listenFd reserved).Along SameMessage es) :
    Retried ((machine listenFd reserved).run es).calls := by
  have start : (∃ l, Invariant (initial listenFd reserved) l) ∧
      Retrying (initial listenFd reserved) .dispatch ∧
      Throughout Repeats (initial listenFd reserved).calls :=
    ⟨⟨[], initial_invariant listenFd reserved⟩, trivial, throughout_nil⟩
  refine retried_of_repeats (Machine.invariant_along (M := machine listenFd reserved)
    (I := fun s => (∃ l, Invariant s l) ∧ Retrying s s.pos ∧ Throughout Repeats s.calls)
    start ?_ h hm).2.2
  rintro s e ⟨⟨l, hi⟩, hr, hc⟩ he hm
  exact ⟨step_invariant hi he, step_retrying hi hr he hm, step_repeats hr hc he⟩

/-- The second client is slow when the first one says `a`, and takes it when it is said
again. -/
theorem writes_repeat_same_message :
    let es : List Event := [.poll [.listener], .advance, .accept 5 50, .accept 6 60,
      .acceptFailed, .poll [.conn 5 0, .conn 6 1], .advance, .advance, .advance, .sslAccept .done,
      .advance, .advance, .sslAccept .done, .poll [.conn 5 0], .advance, .advance, .advance,
      .sslRead (.data [97]), .advance, .sslWrite .wantWrite, .advance, .advance,
      .sslRead (.data [97]), .advance, .sslWrite (.wrote 1)]
    Retried ((machine 3 {0, 1, 2, 4}).run es).calls :=
  writes_repeat 3 {0, 1, 2, 4} _ (by decide) (by decide)

/-- The second client is slow when the first one says `ab`; the next write brings it `c`. -/
theorem other_message_written :
    let es : List Event := [.poll [.listener], .advance, .accept 5 50, .accept 6 60,
      .acceptFailed, .poll [.conn 5 0, .conn 6 1], .advance, .advance, .advance, .sslAccept .done,
      .advance, .advance, .sslAccept .done, .poll [.conn 5 0], .advance, .advance, .advance,
      .sslRead (.data [97, 98]), .advance, .sslWrite .wantWrite, .advance, .advance,
      .sslRead (.data [99]), .advance, .sslWrite .fatal]
    (machine 3 {0, 1, 2, 4}).Valid es ∧
      ¬ Throughout Repeats ((machine 3 {0, 1, 2, 4}).run es).calls := by
  refine ⟨by decide, fun hall => ?_⟩
  have hlast := hall [.accept 0 .done, .accept 1 .done, .read 0 (.data [97, 98]),
    .write 1 [97, 98] 0 .wantWrite, .read 0 (.data [99])] (.write 1 [99] 0 .fatal) [] (by decide)
  exact absurd (hlast [97, 98] rfl) (by decide)

end TlsRetry
