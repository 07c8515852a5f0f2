import LinuxLabs.TlsCalls
import Mathlib.Algebra.GroupWithZero.Nat
import Mathlib.Data.List.TakeWhile

/-! # Broadcasts of the TLS chat server (lab 16)
Who is offered a chunk, read off the calls that follow its read, and the states its
connections go through. -/
namespace TlsBroadcast

open Execution LinkedList TlsChatServer TlsConnections TlsCalls

variable {calls pre post : List Call} {c : Call} {i j : ConnId} {s : State} {l : List Addr}
  {h : Handler}

/-! ## Who is offered a chunk -/

/-- An offer starts with the write that passes the whole chunk. -/
def offerTo : Call → Option ConnId
  | .write j _ written _ => if written = 0 then some j else none
  | .accept .. | .read .. => none

def offers (writes : List Call) : List ConnId := writes.filterMap offerTo

def takenIn (j : ConnId) : Call → ℕ
  | .write i _ _ (.wrote n) => if i = j then n else 0
  | _ => 0

/-- The number of bytes that the writes to `j` have had accepted. -/
def taken (j : ConnId) (writes : List Call) : ℕ := (writes.map (takenIn j)).sum

/-- After these writes of `chunk` the one to `j` that starts at `written` passes on what is not
accepted yet, and continues the write to `j` right before it unless it is the first. -/
def Due (chunk : List UInt8) (writes : List Call) (j : ConnId) (written : ℕ) : Prop :=
  written < chunk.length ∧ written = taken j writes ∧
    (written = 0 ∨ ∃ w n, writes.getLast? = some (.write j chunk w (.wrote n)))

def PassedOn (chunk : List UInt8) (writes : List Call) : Call → Prop
  | .write j buf written _ => buf = chunk ∧ Due chunk writes j written
  | .accept .. | .read .. => False

/-- The offer to `j` is over: everything was accepted, or a write was refused. -/
def Over (chunk : List UInt8) (writes : List Call) (j : ConnId) : Prop :=
  chunk.length ≤ taken j writes ∨
    ∃ written r, .write j chunk written r ∈ writes ∧ ∀ n, r ≠ .wrote n

/-- These writes pass on `chunk`, read from `i` after the calls `pre`, to others that were
established then, to no one twice, and each of them goes on where the one before it ended. -/
structure Offered (pre : List Call) (i : ConnId) (chunk : List UInt8) (writes : List Call) :
    Prop where
  passed : Throughout (PassedOn chunk) writes
  started : ∀ c ∈ writes, callee c ∈ offers writes
  once : (offers writes).Nodup
  others : ∀ j ∈ offers writes, j ≠ i ∧ stateAfter pre j = .established

structure OfferedToAll (pre : List Call) (i : ConnId) (chunk : List UInt8)
    (writes : List Call) : Prop where
  offered : Offered pre i chunk writes
  all : ∀ j, j ≠ i → stateAfter pre j = .established → j ∈ offers writes ∧ Over chunk writes j

/-- Every chunk was offered to all by the writes that follow its read. -/
def Distributed (calls : List Call) : Prop := ∀ pre i chunk post,
  calls = pre ++ .read i (.data chunk) :: post →
    OfferedToAll pre i chunk (post.takeWhile isWrite)

theorem takeWhile_until (hc : isWrite c = false) :
    (pre ++ c :: post).takeWhile isWrite = pre.takeWhile isWrite := by
  induction pre with
  | nil => simp [hc]
  | cons d pre ih => simp only [List.cons_append, List.takeWhile_cons, ih]

/-- A call that is no write stands before `c`, or is `c` itself, when only writes follow. -/
theorem split_at_last {pre' writes : List Call} {c d : Call} (hd : isWrite d = false)
    (hw : ∀ c ∈ writes, isWrite c = true) (heq : pre ++ c :: writes = pre' ++ d :: post) :
    (pre' = pre ∧ d = c ∧ post = writes) ∨ ∃ m, pre = pre' ++ d :: m ∧ post = m ++ c :: writes := by
  rcases List.append_eq_append_iff.mp heq with ⟨m, rfl, hm⟩ | ⟨m, rfl, hm⟩
  · cases m with
    | nil =>
      obtain ⟨rfl, rfl⟩ := List.cons.inj hm
      exact Or.inl ⟨List.append_nil _, rfl, rfl⟩
    | cons e m =>
      obtain ⟨_, rfl⟩ := List.cons.inj hm
      rw [hw d (by simp)] at hd
      cases hd
  · cases m with
    | nil =>
      obtain ⟨rfl, rfl⟩ := List.cons.inj hm
      exact Or.inl ⟨(List.append_nil _).symm, rfl, rfl⟩
    | cons e m =>
      obtain ⟨rfl, rfl⟩ := List.cons.inj hm
      exact Or.inr ⟨m, rfl, rfl⟩

theorem Distributed.concat (hd : Distributed calls) (hw : isWrite c = false)
    (hc : ∀ i chunk, c ≠ .read i (.data chunk)) : Distributed (calls ++ [c]) := by
  intro pre i chunk post heq
  rcases split_at_last rfl (by simp) heq with ⟨_, hread, _⟩ | ⟨m, rfl, rfl⟩
  · exact absurd hread.symm (hc i chunk)
  · rw [takeWhile_until hw]
    exact hd pre i chunk m rfl

theorem passed_isWrite {chunk : List UInt8} {writes : List Call}
    (hp : Throughout (PassedOn chunk) writes) : ∀ c ∈ writes, isWrite c = true := by
  intro c hc
  obtain ⟨before, after, heq⟩ := List.append_of_mem hc
  have hpassed := hp before c after heq
  cases c with
  | write => rfl
  | accept | read => exact hpassed.elim

theorem Distributed.chunk (hd : Distributed pre) {chunk : List UInt8} {writes : List Call}
    (ho : OfferedToAll pre i chunk writes) :
    Distributed (pre ++ .read i (.data chunk) :: writes) := by
  have hw := passed_isWrite ho.offered.passed
  intro pre' i' chunk' post heq
  rcases split_at_last rfl hw heq with ⟨rfl, hread, rfl⟩ | ⟨m, rfl, rfl⟩
  · cases hread
    rw [List.takeWhile_eq_self_iff.mpr hw]
    exact ho
  · rw [takeWhile_until rfl]
    exact hd pre' i' chunk' m rfl

/-! ## One more write -/

section

variable {chunk : List UInt8} {writes : List Call} {written n : ℕ} {r : WriteResult}

theorem taken_concat : taken j (writes ++ [c]) = taken j writes + takenIn j c := by
  simp [taken]

theorem taken_unoffered (hs : ∀ c ∈ writes, callee c ∈ offers writes) (hj : j ∉ offers writes) :
    taken j writes = 0 := by
  refine List.sum_eq_zero_iff_forall_eq_nat.mpr fun n hn => ?_
  obtain ⟨c, hc, rfl⟩ := List.mem_map.mp hn
  have hne : callee c ≠ j := fun he => hj (he ▸ hs c hc)
  unfold takenIn
  split
  · exact if_neg hne
  · rfl

theorem offers_concat : offers (writes ++ [.write j chunk written r]) =
    offers writes ++ if written = 0 then [j] else [] := by
  by_cases h0 : written = 0 <;> simp [offers, offerTo, h0]

/-- The connection of a write that continues another was offered the chunk with that one. -/
theorem Due.started (hd : Due chunk writes j written)
    (hs : ∀ c ∈ writes, callee c ∈ offers writes) :
    ∀ c ∈ writes ++ [.write j chunk written r],
      callee c ∈ offers (writes ++ [.write j chunk written r]) := by
  intro c hc
  rw [offers_concat, List.mem_append]
  rcases List.mem_append.mp hc with hc | hc
  · exact Or.inl (hs c hc)
  obtain rfl := List.mem_singleton.mp hc
  rcases hd.2.2 with h0 | ⟨w, n, hlast⟩
  · exact Or.inr (by simp [h0, callee])
  · have hprev := hs _ (List.mem_of_getLast? hlast)
    exact Or.inl hprev

/-- A write that was accepted in part leaves the rest due. -/
theorem Due.continue (hd : Due chunk writes j written) (hlt : written + n < chunk.length) :
    Due chunk (writes ++ [.write j chunk written (.wrote n)]) j (written + n) := by
  refine ⟨hlt, ?_, Or.inr ⟨written, n, by simp⟩⟩
  rw [taken_concat, hd.2.1]
  simp [takenIn]

theorem Due.over (hd : Due chunk writes j written) (hge : ¬ written + n < chunk.length) :
    Over chunk (writes ++ [.write j chunk written (.wrote n)]) j := by
  left
  have ht := hd.2.1
  rw [taken_concat]
  simp only [takenIn, if_true]
  omega

theorem Over.concat (h : Over chunk writes j) : Over chunk (writes ++ [c]) j := by
  rcases h with h | ⟨w, r, hm, hr⟩
  · left
    rw [taken_concat]
    exact h.trans (Nat.le_add_right _ _)
  · exact Or.inr ⟨w, r, List.mem_append_left _ hm, hr⟩

theorem over_refused (hr : ∀ n, r ≠ .wrote n) :
    Over chunk (writes ++ [.write j chunk written r]) j :=
  Or.inr ⟨written, r, by simp, hr⟩

end

/-! ## The walk of a broadcast offers the chunk to all -/

/-- The connections on the way from here that the broadcast will offer its chunk to. -/
def audience (s : State) (h : Handler) (m : List Addr) : List ConnId :=
  (m.filter fun a => (s.nodes a).state = .established ∧ a ≠ h.c).map fun a => (s.nodes a).id

/-- A broadcast that made `writes` since the read after `pre` and still has the connections
`left` to offer its chunk to. -/
structure Sharing (s : State) (h : Handler) (buf : List UInt8) (pre writes : List Call)
    (left : List ConnId) : Prop where
  calls : s.calls = pre ++ .read (s.nodes h.c).id (.data buf) :: writes
  before : Distributed pre
  passed : Throughout (PassedOn buf) writes
  started : ∀ c ∈ writes, callee c ∈ offers writes
  once : (offers writes ++ left).Nodup
  all : ∀ j, j ∈ offers writes ++ left ↔ j ≠ (s.nodes h.c).id ∧ stateAfter pre j = .established

def Shared (s : State) : Pos → Prop
  | .broadcasting h buf cur => ∃ m pre writes, Chain s.next cur m ∧
    Sharing s h buf pre writes (audience s h m) ∧ ∀ j ∈ offers writes, Over buf writes j
  | .writing h buf cur written => ∃ m pre writes, Chain s.next (some cur) (cur :: m) ∧
    Sharing s h buf pre writes
      (if written = 0 then (s.nodes cur).id :: audience s h m else audience s h m) ∧
    Due buf writes (s.nodes cur).id written ∧
    ∀ j ∈ offers writes, j ≠ (s.nodes cur).id → Over buf writes j
  | _ => Distributed s.calls

section

variable {buf : List UInt8} {writes : List Call} {left : List ConnId}

theorem Sharing.goto (hs : Sharing s h buf pre writes left) (pos : Pos) :
    Sharing (s.goto pos) h buf pre writes left :=
  ⟨hs.calls, hs.before, hs.passed, hs.started, hs.once, hs.all⟩

theorem Sharing.offered (hs : Sharing s h buf pre writes left) :
    Offered pre (s.nodes h.c).id buf writes :=
  ⟨hs.passed, hs.started, (List.nodup_append.mp hs.once).1,
    fun j hj => (hs.all j).mp (List.mem_append_left _ hj)⟩

theorem Sharing.finish (hs : Sharing s h buf pre writes [])
    (ho : ∀ j ∈ offers writes, Over buf writes j) : Distributed s.calls := by
  rw [hs.calls]
  refine hs.before.chunk ⟨hs.offered, fun j hne hst => ?_⟩
  have hj := (hs.all j).mpr ⟨hne, hst⟩
  rw [List.append_nil] at hj
  exact ⟨hj, ho j hj⟩

theorem Sharing.write {written : ℕ} {r : WriteResult}
    (hs : Sharing s h buf pre writes (if written = 0 then j :: left else left))
    (hd : Due buf writes j written) {s' : State}
    (hcalls : s'.calls = s.calls ++ [.write j buf written r])
    (hid : (s'.nodes h.c).id = (s.nodes h.c).id) :
    Sharing s' h buf pre (writes ++ [.write j buf written r]) left := by
  have hoffers : offers (writes ++ [.write j buf written r]) ++ left =
      offers writes ++ if written = 0 then j :: left else left := by
    rw [offers_concat]
    split <;> simp
  constructor
  · rw [hcalls, hs.calls, hid, List.append_assoc, List.cons_append]
  · exact hs.before
  · exact throughout_concat.mpr ⟨hs.passed, rfl, hd⟩
  · exact hd.started hs.started
  · rw [hoffers]
    exact hs.once
  · rw [hoffers, hid]
    exact hs.all

/-- The next connection on the way has not been written to. -/
theorem Sharing.due (hs : Sharing s h buf pre writes (j :: left)) (hbuf : buf ≠ []) :
    Due buf writes j 0 := by
  refine ⟨List.length_pos_iff.mpr hbuf, (taken_unoffered hs.started fun hj => ?_).symm, Or.inl rfl⟩
  exact (List.nodup_append.mp hs.once).2.2 j hj j List.mem_cons_self rfl

end

/-- When a chunk is read, all there is to reach is on the list. -/
theorem sharing_read (hg : Logged s) (hl : Listed s l) (hh : Handles s l h)
    (hd : Distributed s.calls) (buf : List UInt8) :
    Sharing (s.record (.read (s.nodes h.c).id (.data buf))) h buf s.calls []
      (audience s h l) := by
  refine ⟨rfl, hd, throughout_nil, by simp, ?_, fun j => ?_⟩
  · refine List.Nodup.map_on (fun a ha b hb => ?_) (hl.chain.nodup.filter _)
    exact hl.ids a (List.mem_of_mem_filter ha) b (List.mem_of_mem_filter hb)
  · change j ∈ audience s h l ↔ j ≠ (s.nodes h.c).id ∧ _
    simp only [audience, List.mem_map, List.mem_filter, decide_eq_true_eq]
    constructor
    · rintro ⟨a, ⟨ha, hst, hne⟩, rfl⟩
      refine ⟨fun hid => hne (hl.ids a ha h.c hh.mem hid), ?_⟩
      rw [← hg.states a ((hl.live a).mpr ha)]
      exact hst
    · rintro ⟨hne, hst⟩
      obtain ⟨a, ha, rfl⟩ := hg.present j hst
      refine ⟨a, ⟨(hl.live a).mp ha, ?_, ?_⟩, rfl⟩
      · rw [hg.states a ha]
        exact hst
      · rintro rfl
        exact hne rfl

theorem audience_cons {cur : Addr} {m : List Addr} : audience s h (cur :: m) =
    if (s.nodes cur).state = .established ∧ cur ≠ h.c then
      (s.nodes cur).id :: audience s h m else audience s h m := by
  simp only [audience, List.filter_cons, decide_eq_true_eq]
  split <;> rfl

/-- The end of a connection behind the walk changes nothing ahead of it. -/
theorem audience_setState {cur : Addr} {m : List Addr} (hm : cur ∉ m) (st : ConnState) :
    audience (s.setState cur st) h m = audience s h m := by
  simp only [audience, setState_id]
  congr 1
  refine List.filter_congr fun a ha => ?_
  rw [setState_state, if_neg]
  rintro rfl
  exact hm ha

theorem shared_elsewhere {p : Pos} (hp : ¬ Broadcasting p) : Shared s p ↔ Distributed s.calls := by
  cases p with
  | broadcasting | writing => exact absurd trivial hp
  | _ => exact Iff.rfl

/-- The write at `cur` is made, and the walk has those behind it to go. -/
theorem Shared.wrote {buf : List UInt8} {cur : Addr} {written : ℕ} {r : WriteResult}
    (hs : Shared s (.writing h buf cur written)) {t : State}
    (hcalls : t.calls = s.calls ++ [.write (s.nodes cur).id buf written r])
    (hid : (t.nodes h.c).id = (s.nodes h.c).id) (hnext : t.next = s.next)
    (haud : ∀ m, cur ∉ m → audience t h m = audience s h m) :
    ∃ m pre writes, Chain t.next (some cur) (cur :: m) ∧
      Sharing t h buf pre (writes ++ [.write (s.nodes cur).id buf written r])
        (audience t h m) ∧
      Due buf writes (s.nodes cur).id written ∧
      ∀ j ∈ offers (writes ++ [.write (s.nodes cur).id buf written r]),
        j ≠ (s.nodes cur).id → Over buf (writes ++ [.write (s.nodes cur).id buf written r]) j := by
  obtain ⟨m, pre, writes, hm, hs, hd, ho⟩ := hs
  refine ⟨m, pre, writes, hnext ▸ hm, ?_, hd, fun j hj hne => (ho j ?_ hne).concat⟩
  · rw [haud m (List.nodup_cons.mp hm.nodup).1]
    exact hs.write hd hcalls hid
  · rw [offers_concat, List.mem_append] at hj
    refine hj.resolve_right fun hj => ?_
    split at hj
    · exact hne (List.mem_singleton.mp hj)
    · cases hj

/-- With the write at `cur` refused, the walk goes on behind it. -/
theorem Shared.skip {buf : List UInt8} {cur : Addr} {written : ℕ} {r : WriteResult}
    (hs : Shared s (.writing h buf cur written)) (hr : ∀ n, r ≠ .wrote n) {t : State}
    (hcalls : t.calls = s.calls ++ [.write (s.nodes cur).id buf written r])
    (hid : (t.nodes h.c).id = (s.nodes h.c).id) (hnext : t.next = s.next)
    (haud : ∀ m, cur ∉ m → audience t h m = audience s h m) :
    Shared t (.broadcasting h buf (s.next cur)) := by
  obtain ⟨m, pre, writes, hm, hs, _, ho⟩ := hs.wrote hcalls hid hnext haud
  rw [← hnext]
  refine ⟨m, pre, _, hm.2, hs, fun j hj => ?_⟩
  by_cases hne : j = (s.nodes cur).id
  · subst hne
    exact over_refused hr
  · exact ho j hj hne

theorem step_shared (hi : Invariant s l) (hg : Logged s) (hs : Shared s s.pos) {e : Event}
    (he : Enabled s e) : Shared (next s e) (next s e).pos := by
  obtain ⟨hl, ha⟩ := hi
  have hturn := step_turn he
  generalize next s e = t at hturn ⊢
  cases hturn with
  | elsewhere before after calls =>
    rw [shared_elsewhere before] at hs
    rw [shared_elsewhere after, calls]
    exact hs
  | called before after nowrite nodata calls =>
    rw [shared_elsewhere before] at hs
    rw [shared_elsewhere after, calls]
    exact hs.concat nowrite nodata
  | read pos =>
    rw [pos] at hs ha
    exact ⟨l, s.calls, [], hl.chain, (sharing_read hg hl ha.1 hs _).goto _, by simp [offers]⟩
  | finished pos =>
    rw [pos] at hs
    obtain ⟨m, pre, writes, hm, hs, ho⟩ := hs
    obtain rfl := hm.unique (m := []) rfl
    exact hs.finish ho
  | @reached h buf cur pos other =>
    rw [pos] at hs ha
    obtain ⟨m, pre, writes, hm, hs, ho⟩ := hs
    obtain ⟨m, rfl⟩ := hm.cons
    rw [audience_cons, if_pos other] at hs
    have hd := hs.due ha.2.2.1
    rw [TlsChatServer.offer, if_pos hd.1]
    exact ⟨m, pre, writes, hm, hs.goto _, hd, fun j hj _ => ho j hj⟩
  | @passed h buf cur pos skip =>
    rw [pos] at hs
    obtain ⟨m, pre, writes, hm, hs, ho⟩ := hs
    obtain ⟨m, rfl⟩ := hm.cons
    rw [audience_cons, if_neg skip] at hs
    exact ⟨m, pre, writes, hm.2, hs.goto _, ho⟩
  | @wrote h buf cur written n pos hn =>
    rw [pos] at hs
    obtain ⟨m, pre, writes, hm, hs, hd, ho⟩ := hs.wrote (r := .wrote n)
      (t := s.record (.write (s.nodes cur).id buf written (.wrote n))) rfl rfl rfl fun _ _ => rfl
    unfold TlsChatServer.offer
    split
    · next hlt =>
      refine ⟨m, pre, _, hm, ?_, hd.continue hlt, ho⟩
      rw [if_neg (by omega)]
      exact hs.goto _
    · next hge =>
      refine ⟨m, pre, _, hm.2, hs.goto _, fun j hj => ?_⟩
      by_cases hne : j = (s.nodes cur).id
      · subst hne
        exact hd.over hge
      · exact ho j hj hne
  | @refused h buf cur written r pos want =>
    rw [pos] at hs
    refine hs.skip (r := r) (fun n hn => ?_) rfl rfl rfl fun _ _ => rfl
    subst hn
    rcases want with h | h <;> cases h
  | @failed h buf cur written pos =>
    rw [pos] at hs
    refine hs.skip (r := .fatal) (fun n hn => by cases hn) rfl (setState_id ..) (setState_next ..)
      fun _ hm => audience_setState hm _

/-! ## Every run -/

structure Settled (s : State) : Prop where
  consistent : ∃ l, Invariant s l
  logged : Logged s
  shared : Shared s s.pos

theorem initial_settled (listenFd : Fd) (reserved : Finset Fd) :
    Settled (initial listenFd reserved) := by
  refine ⟨⟨[], initial_invariant listenFd reserved⟩,
    ⟨by simp [initial], by simp [initial], ?_, throughout_nil⟩, ?_⟩
  · intro j hj
    cases hj
  · intro pre i chunk post heq
    cases pre <;> cases heq

theorem run_settled {listenFd : Fd} {reserved : Finset Fd} {es : List Event}
    (h : (machine listenFd reserved).Valid es) : Settled ((machine listenFd reserved).run es) := by
  refine Machine.invariant (I := Settled) (initial_settled listenFd reserved) ?_ h
  rintro s e ⟨⟨l, hi⟩, hg, hs⟩ he
  exact ⟨step_invariant hi he, step_logged hi hg he, step_shared hi hg hs he⟩

theorem step_calls (s : State) (e : Event) : s.calls <+: (next s e).calls := by
  cases e with
  | poll | accept | acceptFailed => exact List.prefix_rfl
  | advance =>
    simp only [next]
    unfold advance
    repeat' split
    all_goals exact List.prefix_rfl
  | sslAccept r | sslRead r | sslWrite r =>
    simp only [next]
    split
    · cases r <;> exact List.prefix_append _ _
    · exact List.prefix_rfl

theorem runFrom_calls (listenFd : Fd) (reserved : Finset Fd) (s : State) (es : List Event) :
    s.calls <+: ((machine listenFd reserved).runFrom s es).calls := by
  induction es generalizing s with
  | nil => exact List.prefix_rfl
  | cons e es ih => exact (step_calls s e).trans (ih _)

/-- What the code has done with a chunk: during its broadcast it is offered to some, and with
the next call of another kind, or at the end of the broadcast, to all. -/
structure ChunkShared (s : State) (pre : List Call) (i : ConnId) (chunk : List UInt8)
    (post : List Call) : Prop where
  offered : Offered pre i chunk (post.takeWhile isWrite)
  all : ¬ Broadcasting s.pos ∨ (∃ c ∈ post, isWrite c = false) →
    OfferedToAll pre i chunk (post.takeWhile isWrite)

theorem Sharing.chunkShared {buf : List UInt8} {pre' writes : List Call} {left : List ConnId}
    (hs : Sharing s h buf pre' writes left) (hb : Broadcasting s.pos) {chunk : List UInt8}
    (heq : s.calls = pre ++ .read i (.data chunk) :: post) : ChunkShared s pre i chunk post := by
  have hw := passed_isWrite hs.passed
  rcases split_at_last rfl hw (hs.calls.symm.trans heq) with ⟨rfl, hread, rfl⟩ | ⟨m, rfl, rfl⟩
  · -- the last chunk may still be due to some
    cases hread
    refine ⟨?_, ?_⟩
    · rw [List.takeWhile_eq_self_iff.mpr hw]
      exact hs.offered
    · rintro (hn | ⟨c, hc, hcw⟩)
      · exact absurd hb hn
      · cases (hw c hc).symm.trans hcw
  · have hall := hs.before pre i chunk m rfl
    have heq : (m ++ .read (s.nodes h.c).id (.data buf) :: writes).takeWhile isWrite =
        m.takeWhile isWrite := takeWhile_until rfl
    rw [← heq] at hall
    exact ⟨hall.offered, fun _ => hall⟩

theorem Shared.chunkShared (hs : Shared s s.pos) {chunk : List UInt8}
    (heq : s.calls = pre ++ .read i (.data chunk) :: post) : ChunkShared s pre i chunk post := by
  cases hpos : s.pos with
  | broadcasting h buf cur =>
    rw [hpos] at hs
    obtain ⟨m, _, _, _, hs, _⟩ := hs
    exact hs.chunkShared (by rw [hpos]; trivial) heq
  | writing h buf cur written =>
    rw [hpos] at hs
    obtain ⟨m, _, _, _, hs, _⟩ := hs
    exact hs.chunkShared (by rw [hpos]; trivial) heq
  | _ =>
    rw [hpos] at hs
    have hall := hs pre i chunk post heq
    exact ⟨hall.offered, fun _ => hall⟩

/-- A connection's state is what the calls made on it amount to, and only moves forward; the
calls keep to it; and a chunk is offered once to each other connection that was established
when it was read, and to no one else, by the time the next call of another kind is made. -/
structure Lifecycle (listenFd : Fd) (reserved : Finset Fd) (es : List Event) (s : State) :
    Prop where
  states : ∀ a ∈ s.live, (s.nodes a).state = stateAfter s.calls (s.nodes a).id
  forward : ∀ fs gs, es = fs ++ gs →
    ∀ a ∈ ((machine listenFd reserved).run fs).live, ∀ b ∈ s.live,
      (((machine listenFd reserved).run fs).nodes a).id = (s.nodes b).id →
        Forward (((machine listenFd reserved).run fs).nodes a).state (s.nodes b).state
  ordered : Throughout Allowed s.calls
  offered : ∀ pre i chunk post, s.calls = pre ++ .read i (.data chunk) :: post →
    ChunkShared s pre i chunk post

theorem run_lifecycle (listenFd : Fd) (reserved : Finset Fd) (es : List Event)
    (h : (machine listenFd reserved).Valid es) :
    Lifecycle listenFd reserved es ((machine listenFd reserved).run es) := by
  have hs := run_settled h
  refine ⟨hs.logged.states, ?_, hs.logged.ordered, fun _ _ _ _ heq => hs.shared.chunkShared heq⟩
  rintro fs gs rfl a ha b hb hid
  have hfs := run_settled ((Machine.along_append fs gs).mp h).1
  obtain ⟨rest, hrest⟩ := runFrom_calls listenFd reserved ((machine listenFd reserved).run fs) gs
  rw [hfs.logged.states a ha, hs.logged.states b hb, hid, Machine.run_append, ← hrest]
  exact stateAfter_forward

/-- Three clients are established; the first one's message finds the second gone, and the
third takes it in two writes. -/
theorem run_lifecycle_peer_gone :
    let es : List Event := [.poll [.listener], .advance, .accept 5 50, .accept 6 60,
      .accept 7 70, .acceptFailed, .poll [.conn 5 0, .conn 6 1, .conn 7 2],
      .advance, .advance, .advance, .advance, .sslAccept .done,
      .advance, .advance, .advance, .sslAccept .done, .advance, .advance, .sslAccept .done,
      .poll [.conn 5 0], .advance, .advance, .advance, .advance, .sslRead (.data [104, 105]),
      .advance, .sslWrite (.wrote 1), .sslWrite (.wrote 1), .advance, .sslWrite .fatal]
    let s := (machine 3 {0, 1, 2, 4}).run es
    s.calls = [.accept 0 .done, .accept 1 .done, .accept 2 .done, .read 0 (.data [104, 105]),
      .write 2 [104, 105] 0 (.wrote 1), .write 2 [104, 105] 1 (.wrote 1),
      .write 1 [104, 105] 0 .fatal] ∧ Lifecycle 3 {0, 1, 2, 4} es s := by
  exact ⟨by decide, run_lifecycle 3 {0, 1, 2, 4} _ (by decide)⟩

end TlsBroadcast
