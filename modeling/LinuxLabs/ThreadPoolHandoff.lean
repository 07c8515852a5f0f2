import LinuxLabs.Mutex
import LinuxLabs.ThreadPoolQueue
import Mathlib.Data.List.Perm.Subperm

/-! # Hand-off through the job queue
The mutex keeps the threads' updates apart; between updates the links are a list of what was
pushed and not yet taken. Descriptors leave in the order in which they came. -/
namespace ThreadPoolHandoff

open Execution LinkedList Mutex ThreadPoolQueue

variable {T : ℕ} {s s' : State T} {t u : Thread T}

/-! ## The mutex -/

/-- The owner of the mutex is the thread between its lock and its unlock. -/
def Exclusive (s : State T) : Prop := Owned s.mutex fun t => (s.pc t).holds = true

theorem update_holds {p : Pc} (hpc : s'.pc = Function.update s.pc t p) (u : Thread T)
    (hu : u ≠ t) : (s'.pc u).holds = true ↔ (s.pc u).holds = true := by
  rw [hpc, Function.update_of_ne hu]

section Exclusive

variable {p : Pc} (h : Exclusive s) (hpc : s'.pc = Function.update s.pc t p)
include h hpc

theorem Exclusive.keep (hm : s'.mutex = s.mutex) (hp : p.holds = (s.pc t).holds) :
    Exclusive s' := by
  rw [Exclusive, hm]
  refine Owned.keep h fun u => ?_
  by_cases hu : u = t
  · rw [hu, hpc, Function.update_self, hp]
  · exact update_holds hpc u hu

theorem Exclusive.acquire (hfree : s.mutex = none) (hm : s'.mutex = some t)
    (hp : p.holds = true) : Exclusive s' := by
  rw [Exclusive, hm]
  refine Owned.acquire h (update_holds hpc) hfree ?_
  rw [hpc, Function.update_self, hp]

theorem Exclusive.release (ht : (s.pc t).holds = true) (hm : s'.mutex = none)
    (hp : p.holds = false) : Exclusive s' := by
  rw [Exclusive, hm]
  refine Owned.release h (update_holds hpc) ht ?_
  rw [hpc, Function.update_self, hp]
  exact Bool.false_ne_true

end Exclusive

theorem turn_exclusive (h : Exclusive s) (st : Turn s s') : Exclusive s' := by
  cases st with
  | move t p holds => exact h.keep rfl rfl holds
  | acquire t p mutex holds => exact h.acquire rfl mutex rfl holds
  | release t p owner holds => exact h.release rfl owner rfl holds
  | close t pos | malloc t fd a pos | last t a pos | unlink t a j pos | read t a fd j pos
  | free t a fd pos => exact h.keep rfl rfl (by rw [pos]; rfl)
  | link t fd a pos =>
    exact h.keep (congrArg (Function.update · t _) (linkIn_pc _ a)) (linkIn_mutex _ a)
      (by rw [pos]; rfl)
  | cut t a fd pos =>
    obtain ⟨tl, hcut⟩ := cutTail_eq s
    rw [hcut]
    exact h.keep rfl rfl (by rw [pos]; rfl)
  | broadcast t pos =>
    refine Owned.keep h fun u => ?_
    simp only [State.setPc, Function.update_apply]
    split
    · next hu => simp [hu, pos, Pc.holds]
    · split
      · next hw => simp [hw, Pc.holds]
      · exact Iff.rfl
  | stuck => exact h

/-! ## What a worker found under the mutex -/

def Decided (s : State T) : Prop := ∀ t, (s.pc t).Sees s.head s.closed

theorem sees_of_not_holds {p : Pc} (h : p.holds = false) (head : Option Addr) (closed : Bool) :
    p.Sees head closed := by
  cases p with
  | popDecide | popUnlink | popFail => cases h
  | _ => trivial

section Decided

variable {p : Pc} (h : Decided s) (hpc : s'.pc = Function.update s.pc t p)
include h hpc

theorem Decided.keep (hhead : s'.head = s.head) (hclosed : s'.closed = s.closed)
    (hp : p.Sees s.head s.closed) : Decided s' := by
  intro u
  rw [hpc, hhead, hclosed, Function.update_apply]
  split
  · exact hp
  · exact h u

omit h in
/-- What the owner of the mutex changes no other thread has tested. -/
theorem Decided.own (hex : Exclusive s) (ht : (s.pc t).holds = true)
    (hp : p.Sees s'.head s'.closed) : Decided s' := by
  intro u
  rw [hpc, Function.update_apply]
  split
  · exact hp
  · next hu =>
    refine sees_of_not_holds ?_ _ _
    rw [Bool.eq_false_iff]
    exact fun hh => hu (hex.eq hh ht)

end Decided

theorem turn_decided (hex : Exclusive s) (h : Decided s) (st : Turn s s') : Decided s' := by
  cases st with
  | move t p _ _ sees => exact h.keep rfl rfl rfl sees
  | acquire t p _ _ _ sees => exact h.keep rfl rfl rfl sees
  | release t p _ holds => exact h.keep rfl rfl rfl (sees_of_not_holds holds _ _)
  | malloc | last | read | free => exact h.keep rfl rfl rfl trivial
  | close t pos | unlink t a j pos => exact Decided.own rfl hex (by rw [pos]; rfl) trivial
  | link t fd a pos =>
    exact Decided.own (congrArg (Function.update · t _) (linkIn_pc _ a)) hex (by rw [pos]; rfl)
      trivial
  | cut t a fd pos =>
    obtain ⟨tl, hcut⟩ := cutTail_eq s
    rw [hcut]
    exact h.keep rfl rfl rfl trivial
  | broadcast t pos =>
    intro u
    simp only [State.setPc]
    rw [Function.update_apply]
    split
    · trivial
    · split
      · trivial
      · exact h u
  | stuck => exact h

/-! ## The nodes -/

/-- From `head` the links lead through `nodes`, which hold what was pushed and not yet taken,
and `tail` is the last of them but for the half of an update that is still to come. -/
structure Shape (s : State T) (nodes : List Addr) : Prop where
  chain : Chain s.link s.head nodes
  values : s.pushed.map some = s.taken.map (fun x => some x.2) ++ nodes.map s.fdAt
  ended : (∀ t, (s.pc t).half = none) → s.tail = nodes.getLast?
  linked : ∀ t a, (s.pc t).half = some (.linked a) →
    ∃ front, nodes = front ++ [a] ∧ s.tail = front.getLast?
  unlinked : ∀ t a, (s.pc t).half = some (.unlinked a) → s.tail = (a :: nodes).getLast?
  job : ∀ t a fd, (s.pc t).job = some (a, fd) → a ∉ nodes ∧ s.fdAt a = some fd
  fresh : ∀ t a fd, (s.pc t).job = some (a, fd) → (s.pc t).fresh = true → s.link a = none
  apart : ∀ t u a fd fd', (s.pc t).job = some (a, fd) → (s.pc u).job = some (a, fd') → t = u

/-- Each worker returned what it took, but for what it has in hand. -/
def Booked (s : State T) : Prop := ∀ t,
  (s.returned.filter fun x => x.1 = t).map Prod.snd ++ (s.pc t).taking =
    (s.taken.filter fun x => x.1 = t).map Prod.snd

variable {nodes : List Addr}

theorem view_update {pc : Thread T → Pc} {p : Pc} (h : p.view = (pc t).view) (u : Thread T) :
    (Function.update pc t p u).view = (pc u).view := by
  rw [Function.update_apply]
  split
  · next hu => rw [hu, h]
  · rfl

theorem Shape.quiet (h : Shape s nodes) {m : Option (Thread T)} {c : Bool} {f : Thread T → Pc}
    (hf : ∀ u, (f u).view = (s.pc u).view) :
    Shape { s with mutex := m, closed := c, pc := f } nodes := by
  have hjob (u) : (f u).job = (s.pc u).job := congrArg Prod.fst (hf u)
  have hfresh (u) : (f u).fresh = (s.pc u).fresh := congrArg (fun v => v.2.1) (hf u)
  have hhalf (u) : (f u).half = (s.pc u).half := congrArg (fun v => v.2.2) (hf u)
  refine ⟨h.chain, h.values, fun hn => h.ended fun u => ?_, fun u a hu => h.linked u a ?_,
    fun u a hu => h.unlinked u a ?_, fun u a fd hu => h.job u a fd ?_,
    fun u a fd hu hn => h.fresh u a fd ?_ ?_, fun u v a fd fd' hu hv => h.apart u v a fd fd' ?_ ?_⟩
  · rw [← hhalf]
    exact hn u
  all_goals simpa only [← hjob, ← hfresh, ← hhalf]

theorem Shape.own (h : Shape s nodes) {m : Option (Thread T)} {c : Bool} {p : Pc}
    (hp : p.view = (s.pc t).view) :
    Shape { s with mutex := m, closed := c, pc := Function.update s.pc t p } nodes :=
  h.quiet (view_update hp)

/-- The nodes on the list are allocated. -/
theorem Shape.cell (h : Shape s nodes) {a : Addr} (ha : a ∈ nodes) : ∃ j, s.heap a = some j := by
  have hm : s.fdAt a ∈ s.pushed.map some := by
    rw [h.values]
    exact List.mem_append_right _ (List.mem_map_of_mem ha)
  obtain ⟨fd, -, hfd⟩ := List.mem_map.mp hm
  obtain ⟨j, hj, -⟩ := Option.map_eq_some_iff.mp hfd.symm
  exact ⟨j, hj⟩

theorem Shape.free_notMem (h : Shape s nodes) {a : Addr} (ha : s.heap a = none) : a ∉ nodes := by
  intro hm
  obtain ⟨j, hj⟩ := h.cell hm
  rw [ha] at hj
  cases hj

theorem holds_of_half {p : Pc} (h : p.half ≠ none) : p.holds = true := by
  cases p with
  | pushTail | popTail => rfl
  | _ => exact absurd rfl h

/-- Only the owner of the mutex can be in the middle of an update. -/
theorem Exclusive.others_whole (hex : Exclusive s) (ht : (s.pc t).holds = true) (hu : u ≠ t) :
    (s.pc u).half = none := by
  by_contra hne
  exact hu (hex.eq (holds_of_half hne) ht)

theorem Exclusive.all_whole (hex : Exclusive s) (ht : (s.pc t).holds = true)
    (hhalf : (s.pc t).half = none) (u : Thread T) : (s.pc u).half = none := by
  by_cases hu : u = t
  · rw [hu, hhalf]
  · exact hex.others_whole ht hu

/-- A cell that is on no list and no other thread's is allocated or freed. -/
theorem Shape.cell_change (h : Shape s nodes) {a : Addr} {x : Option Job} {p : Pc}
    {r : List (Thread T × Fd)} (ha : a ∉ nodes)
    (hothers : ∀ u fd, u ≠ t → (s.pc u).job ≠ some (a, fd)) (hwhole : (s.pc t).half = none)
    (hp : p.half = none) (hjob : ∀ b fd, p.job = some (b, fd) → b = a ∧ x = some ⟨fd, none⟩) :
    Shape ({ s with heap := Function.update s.heap a x, returned := r }.setPc t p) nodes := by
  have hne {b} (hb : b ∈ nodes) : b ≠ a := fun he => ha (he ▸ hb)
  have hhalf (u) : (Function.update s.pc t p u).half = (s.pc u).half := by
    rw [Function.update_apply]
    split
    · next hu => rw [hu, hp, hwhole]
    · rfl
  constructor
  · refine h.chain.congr fun b hb => ?_
    simp [State.setPc, State.link, Function.update_of_ne (hne hb)]
  · refine h.values.trans (congrArg _ (List.map_congr_left fun b hb => ?_))
    simp [State.setPc, State.fdAt, Function.update_of_ne (hne hb)]
  · intro hn
    exact h.ended fun u => (hhalf u).symm.trans (hn u)
  · intro u b hu
    exact h.linked u b ((hhalf u).symm.trans hu)
  · intro u b hu
    exact h.unlinked u b ((hhalf u).symm.trans hu)
  · intro u b fd hu
    simp only [State.setPc, Function.update_apply] at hu
    split at hu
    · obtain ⟨rfl, rfl⟩ := hjob b fd hu
      exact ⟨ha, by simp [State.setPc, State.fdAt]⟩
    · next hut =>
      have hba : b ≠ a := fun he => hothers u fd hut (he ▸ hu)
      simpa [State.setPc, State.fdAt, Function.update_of_ne hba] using h.job u b fd hu
  · intro u b fd hu hn
    simp only [State.setPc, Function.update_apply] at hu hn
    split at hu
    · obtain ⟨rfl, rfl⟩ := hjob b fd hu
      simp [State.setPc, State.link]
    · next hut =>
      rw [if_neg hut] at hn
      have hba : b ≠ a := fun he => hothers u fd hut (he ▸ hu)
      simpa [State.setPc, State.link, Function.update_of_ne hba] using h.fresh u b fd hu hn
  · intro u v b fd fd' hu hv
    simp only [State.setPc, Function.update_apply] at hu hv
    split at hu
    · next hut =>
      obtain ⟨rfl, -⟩ := hjob b fd hu
      split at hv
      · next hvt => rw [hut, hvt]
      · next hvt => exact absurd hv (hothers v fd' hvt)
    · next hut =>
      split at hv
      · obtain ⟨rfl, -⟩ := hjob b fd' hv
        exact absurd hu (hothers u fd hut)
      · exact h.apart u v b fd fd' hu hv

/-! ## Linking in and unlinking -/

@[simp] theorem linkIn_fdAt (s : State T) (a : Addr) : (linkIn s a).fdAt = s.fdAt := by
  unfold linkIn
  split
  · next b _ =>
    funext c
    simp only [State.fdAt, Function.update_apply]
    split
    · next hc =>
      subst hc
      cases s.heap c <;> rfl
    · rfl
  · rfl

/-- `linkIn` leaves everything else alone. -/
theorem linkIn_rest (s : State T) (a : Addr) : (linkIn s a).tail = s.tail ∧
    (linkIn s a).pushed = s.pushed ∧ (linkIn s a).taken = s.taken ∧
    (linkIn s a).returned = s.returned := by
  unfold linkIn
  split <;> exact ⟨rfl, rfl, rfl, rfl⟩

theorem linkIn_link {a b : Addr} (h : s.tail ≠ some b) : (linkIn s a).link b = s.link b := by
  unfold linkIn
  split
  · next c hc =>
    have hbc : b ≠ c := fun he => h (he ▸ hc)
    simp [State.link, Function.update_of_ne hbc]
  · rfl

/-- The new node is reached from the old last one, or from `head`. -/
theorem linkIn_chain {a : Addr} (h : Chain s.link s.head nodes) (hend : s.tail = nodes.getLast?)
    (hcell : ∀ b ∈ nodes, ∃ j, s.heap b = some j) (ha : a ∉ nodes) (hlink : s.link a = none) :
    Chain (linkIn s a).link (linkIn s a).head (nodes ++ [a]) := by
  rcases List.eq_nil_or_concat' nodes with rfl | ⟨front, b, rfl⟩
  · have htail : s.tail = none := hend
    have hnew : linkIn s a = { s with head := some a } := by
      unfold linkIn
      rw [htail]
    rw [hnew]
    exact ⟨rfl, hlink⟩
  · have htail : s.tail = some b := by rw [hend, List.getLast?_concat]
    have hhead : (linkIn s a).head = s.head := by
      unfold linkIn
      rw [htail]
    have hb : (linkIn s a).link b = some a := by
      obtain ⟨j, hj⟩ := hcell b (by simp)
      unfold linkIn
      rw [htail]
      simp [State.link, hj]
    have hother (c) (hc : c ≠ b) : (linkIn s a).link c = s.link c :=
      linkIn_link fun he => hc (Option.some.inj (htail.symm.trans he)).symm
    have hab : a ≠ b := fun he => ha (by simp [he])
    rw [hhead, List.append_assoc]
    refine h.append hb ((hother a hab).trans hlink) fun c hc => hother c ?_
    rintro rfl
    exact (List.nodup_append.mp h.nodup).2.2 c hc c List.mem_cons_self rfl

theorem Shape.linkIn (h : Shape s nodes) (hex : Exclusive s) {fd : Fd} {a : Addr}
    (hpc : s.pc t = .pushLink fd a) :
    Shape ((linkIn { s with pushed := s.pushed ++ [fd] } a).setPc t (.pushTail a))
      (nodes ++ [a]) := by
  have hhold : (s.pc t).holds = true := by rw [hpc]; rfl
  have hwhole : (s.pc t).half = none := by rw [hpc]; rfl
  have hjob : (s.pc t).job = some (a, fd) := by rw [hpc]; rfl
  have hfresh : (s.pc t).fresh = true := by rw [hpc]; rfl
  have hend := h.ended (hex.all_whole hhold hwhole)
  obtain ⟨ha, hfd⟩ := h.job t a fd hjob
  -- the other threads' nodes are neither the new one nor the old last one
  have hothers (u b fd') (hu : u ≠ t) (hb : (s.pc u).job = some (b, fd')) :
      b ∉ nodes ++ [a] ∧ s.tail ≠ some b := by
    have hn := (h.job u b fd' hb).1
    refine ⟨fun hm => ?_, fun he => hn ?_⟩
    · rcases List.mem_append.mp hm with hm | hm
      · exact hn hm
      · obtain rfl := List.mem_singleton.mp hm
        exact hu (h.apart u t b fd' fd hb hjob)
    · exact List.mem_of_getLast? (hend.symm.trans he)
  have hpc' : ((ThreadPoolQueue.linkIn { s with pushed := s.pushed ++ [fd] } a).setPc t
      (.pushTail a)).pc = Function.update s.pc t (.pushTail a) :=
    congrArg (Function.update · t _) (linkIn_pc _ a)
  obtain ⟨htail, hpushed, htaken, -⟩ := linkIn_rest { s with pushed := s.pushed ++ [fd] } a
  have hfdAt : ((ThreadPoolQueue.linkIn { s with pushed := s.pushed ++ [fd] } a).setPc t
      (.pushTail a)).fdAt = s.fdAt := linkIn_fdAt _ a
  constructor
  · exact linkIn_chain h.chain hend (fun b hb => h.cell hb) ha (h.fresh t a fd hjob hfresh)
  · rw [hfdAt]
    simp only [State.setPc, hpushed, htaken]
    rw [List.map_append, h.values, List.map_append, List.append_assoc, List.map_singleton,
      List.map_singleton, hfd]
  · intro hn
    have ht := hn t
    rw [hpc', Function.update_self] at ht
    cases ht
  · intro u b hu
    rw [hpc', Function.update_apply] at hu
    split at hu
    · obtain rfl : a = b := by simpa [Pc.half] using hu
      exact ⟨nodes, rfl, htail.trans hend⟩
    · next hut =>
      rw [hex.others_whole hhold hut] at hu
      cases hu
  · intro u b hu
    rw [hpc', Function.update_apply] at hu
    split at hu
    · cases hu
    · next hut =>
      rw [hex.others_whole hhold hut] at hu
      cases hu
  · intro u b fd' hu
    rw [hpc', Function.update_apply] at hu
    split at hu
    · cases hu
    · next hut =>
      rw [hfdAt]
      exact ⟨(hothers u b fd' hut hu).1, (h.job u b fd' hu).2⟩
  · intro u b fd' hu hn
    rw [hpc', Function.update_apply] at hu hn
    split at hu
    · cases hu
    · next hut =>
      rw [if_neg hut] at hn
      have hlink := linkIn_link (s := { s with pushed := s.pushed ++ [fd] }) (a := a)
        (hothers u b fd' hut hu).2
      exact hlink.trans (h.fresh u b fd' hu hn)
  · intro u v b fd₁ fd₂ hu hv
    rw [hpc', Function.update_apply] at hu hv
    split at hu
    · cases hu
    · split at hv
      · cases hv
      · exact h.apart u v b fd₁ fd₂ hu hv

/-- The steps on `head` and `tail` leave the heap alone. -/
theorem Shape.pointers (h : Shape s nodes) {rest : List Addr} {p : Pc} {hd tl : Option Addr}
    {tk : List (Thread T × Fd)} (hchain : Chain s.link hd rest) (hsub : ∀ a ∈ rest, a ∈ nodes)
    (hvalues : s.pushed.map some = tk.map (fun x => some x.2) ++ rest.map s.fdAt)
    (hwhole : ∀ u, u ≠ t → (s.pc u).half = none)
    (hend : p.half = none → tl = rest.getLast?)
    (hunlinked : ∀ a, p.half = some (.unlinked a) → tl = (a :: rest).getLast?)
    (hlinked : ∀ a, p.half ≠ some (.linked a))
    (hjob : ∀ a fd, p.job = some (a, fd) → a ∉ rest ∧ s.fdAt a = some fd ∧ p.fresh = false ∧
      ∀ u fd', u ≠ t → (s.pc u).job ≠ some (a, fd')) :
    Shape ({ s with head := hd, tail := tl, taken := tk }.setPc t p) rest := by
  constructor
  · exact hchain
  · exact hvalues
  · intro hn
    refine hend ?_
    simpa [State.setPc] using hn t
  · intro u a hu
    simp only [State.setPc, Function.update_apply] at hu
    split at hu
    · exact absurd hu (hlinked a)
    · next hut =>
      rw [hwhole u hut] at hu
      cases hu
  · intro u a hu
    simp only [State.setPc, Function.update_apply] at hu
    split at hu
    · exact hunlinked a hu
    · next hut =>
      rw [hwhole u hut] at hu
      cases hu
  · intro u a fd hu
    simp only [State.setPc, Function.update_apply] at hu
    split at hu
    · obtain ⟨ha, hfd, -⟩ := hjob a fd hu
      exact ⟨ha, hfd⟩
    · obtain ⟨ha, hfd⟩ := h.job u a fd hu
      exact ⟨fun hm => ha (hsub a hm), hfd⟩
  · intro u a fd hu hn
    simp only [State.setPc, Function.update_apply] at hu hn
    split at hu
    · next hut =>
      obtain ⟨-, -, hfresh, -⟩ := hjob a fd hu
      rw [if_pos hut, hfresh] at hn
      cases hn
    · next hut =>
      rw [if_neg hut] at hn
      exact h.fresh u a fd hu hn
  · intro u v a fd fd' hu hv
    simp only [State.setPc, Function.update_apply] at hu hv
    split at hu
    · next hut =>
      split at hv
      · next hvt => rw [hut, hvt]
      · next hvt => exact absurd hv ((hjob a fd hu).2.2.2 v fd' hvt)
    · next hut =>
      split at hv
      · exact absurd hu ((hjob a fd' hv).2.2.2 u fd hut)
      · exact h.apart u v a fd fd' hu hv

theorem Shape.last (h : Shape s nodes) (hex : Exclusive s) {a : Addr}
    (hpc : s.pc t = .pushTail a) : Shape ({ s with tail := some a }.setPc t .pushSignal) nodes := by
  obtain ⟨front, rfl, -⟩ := h.linked t a (by rw [hpc]; rfl)
  exact h.pointers h.chain (fun _ hm => hm) h.values
    (fun u hu => hex.others_whole (by rw [hpc]; rfl) hu) (fun _ => by rw [List.getLast?_concat])
    (fun _ hp => nomatch hp) (fun _ hp => nomatch hp) (fun _ _ hp => nomatch hp)

theorem Shape.unlink (h : Shape s nodes) (hex : Exclusive s) {a : Addr} {j : Job}
    (hpc : s.pc t = .popUnlink a) (hhead : s.head = some a) (hj : s.heap a = some j) :
    ∃ rest, nodes = a :: rest ∧
      Shape ({ s with head := j.next, taken := s.taken ++ [(t, j.clientFd)] }.setPc t
        (.popTail a j.clientFd)) rest := by
  have hchain := h.chain
  rw [hhead] at hchain
  obtain ⟨rest, rfl⟩ := hchain.cons
  have hend := h.ended (hex.all_whole (by rw [hpc]; rfl) (by rw [hpc]; rfl))
  have hfd : s.fdAt a = some j.clientFd := by rw [State.fdAt, hj, Option.map_some]
  have hlink : s.link a = j.next := by rw [State.link, hj, Option.bind_some]
  refine ⟨rest, rfl, h.pointers ?_ (fun _ hm => List.mem_cons_of_mem a hm) ?_
    (fun u hu => hex.others_whole (by rw [hpc]; rfl) hu) (fun hp => nomatch hp) ?_
    (fun b hp => by cases hp) ?_⟩
  · rw [← hlink]
    exact hchain.unlink_head
  · rw [h.values, List.map_append, List.append_assoc, List.map_cons, hfd]
    rfl
  · rintro b hp
    obtain rfl : a = b := by simpa [Pc.half] using hp
    exact hend
  · rintro b fd hp
    obtain ⟨rfl, rfl⟩ : a = b ∧ j.clientFd = fd := by simpa [Pc.job] using hp
    refine ⟨(List.nodup_cons.mp h.chain.nodup).1, hfd, rfl, fun u fd' _ hu => ?_⟩
    exact (h.job u a fd' hu).1 List.mem_cons_self

theorem Shape.cut (h : Shape s nodes) (hex : Exclusive s) {a : Addr} {fd : Fd}
    (hpc : s.pc t = .popTail a fd) : Shape ((cutTail s).setPc t (.popUnlock a fd)) nodes := by
  have htail := h.unlinked t a (by rw [hpc]; rfl)
  have hjob : (s.pc t).job = some (a, fd) := by rw [hpc]; rfl
  have hcut : cutTail s = { s with tail := nodes.getLast? } := by
    have hhead := h.chain.head
    unfold cutTail
    cases nodes with
    | nil =>
      rw [if_pos (show s.head = none from hhead)]
      rfl
    | cons b rest =>
      rw [List.getLast?_cons_cons] at htail
      rw [if_neg (by simp [hhead]), ← htail]
  rw [hcut]
  refine h.pointers h.chain (fun _ hm => hm) h.values
    (fun u hu => hex.others_whole (by rw [hpc]; rfl) hu) (fun _ => rfl)
    (fun _ hp => nomatch hp) (fun _ hp => nomatch hp) ?_
  rintro b fd' hp
  obtain ⟨rfl, rfl⟩ : a = b ∧ fd = fd' := by simpa [Pc.job] using hp
  obtain ⟨ha, hfd⟩ := h.job t a fd hjob
  exact ⟨ha, hfd, rfl, fun u fd' hu hb => hu (h.apart u t a fd' fd hb hjob)⟩

/-- The node still holds the descriptor it was taken with. -/
theorem Shape.read_fd (h : Shape s nodes) {a : Addr} {fd : Fd} {j : Job}
    (hpc : s.pc t = .popRead a fd) (hj : s.heap a = some j) : j.clientFd = fd := by
  obtain ⟨-, hfd⟩ := h.job t a fd (by rw [hpc]; rfl)
  simpa [State.fdAt, hj] using hfd

theorem broadcast_view (s : State T) (h : (s.pc t).view = Pc.closeUnlock.view) (u : Thread T) :
    (Function.update (fun u => if s.pc u = Pc.popWait then Pc.popWake else s.pc u) t
      .closeUnlock u).view = (s.pc u).view := by
  rw [Function.update_apply]
  split
  · next hu => rw [hu, h]
  · split
    · next hw => rw [hw]; rfl
    · rfl

theorem turn_shape (h : Shape s nodes) (hex : Exclusive s) (hd : Decided s) (st : Turn s s') :
    ∃ nodes', Shape s' nodes' := by
  cases st with
  | move t p _ view => exact ⟨nodes, h.own view⟩
  | acquire t p _ _ view => exact ⟨nodes, h.own view⟩
  | release t p _ _ view => exact ⟨nodes, h.own view⟩
  | close t pos => exact ⟨nodes, h.own (by rw [pos]; rfl)⟩
  | broadcast t pos => exact ⟨nodes, h.quiet (broadcast_view s (by rw [pos]; rfl))⟩
  | malloc t fd a pos cell =>
    refine ⟨nodes, h.cell_change (h.free_notMem cell) (fun u fd' _ hb => ?_) (by rw [pos]; rfl) rfl
      fun b fd' hb => ?_⟩
    · obtain ⟨-, hfd⟩ := h.job u a fd' hb
      rw [State.fdAt, cell] at hfd
      cases hfd
    · obtain ⟨rfl, rfl⟩ : a = b ∧ fd = fd' := by simpa [Pc.job] using hb
      exact ⟨rfl, rfl⟩
  | link t fd a pos => exact ⟨_, h.linkIn hex pos⟩
  | last t a pos => exact ⟨nodes, h.last hex pos⟩
  | unlink t a j pos cell =>
    have hhead := hd t
    rw [pos] at hhead
    obtain ⟨rest, -, hrest⟩ := h.unlink hex pos hhead cell
    exact ⟨rest, hrest⟩
  | cut t a fd pos => exact ⟨nodes, h.cut hex pos⟩
  | read t a fd j pos cell =>
    obtain rfl := h.read_fd pos cell
    exact ⟨nodes, h.own (by rw [pos]; rfl)⟩
  | free t a fd pos =>
    have hjob : (s.pc t).job = some (a, fd) := by rw [pos]; rfl
    refine ⟨nodes, h.cell_change (h.job t a fd hjob).1 (fun u fd' hu hb => ?_) (by rw [pos]; rfl)
      rfl fun b fd' hb => nomatch hb⟩
    exact hu (h.apart u t a fd' fd hb hjob)
  | stuck => exact ⟨nodes, h⟩

/-! ## What was taken is what is returned -/

theorem Booked.keep (h : Booked s) {p : Pc} (hpc : s'.pc = Function.update s.pc t p)
    (hreturned : s'.returned = s.returned) (htaken : s'.taken = s.taken)
    (hp : p.taking = (s.pc t).taking) : Booked s' := by
  intro u
  rw [hpc, hreturned, htaken, ← h u, Function.update_apply]
  split
  · next hu => rw [hu, hp]
  · rfl

theorem taking_of_view {p q : Pc} (h : p.view = q.view) : p.taking = q.taking := by
  have hjob : p.job = q.job := congrArg Prod.fst h
  have hfresh : p.fresh = q.fresh := congrArg (fun v => v.2.1) h
  rw [Pc.taking, Pc.taking, hjob, hfresh]

/-- One more item on each side, for the thread it belongs to. -/
theorem filter_concat (L : List (Thread T × Fd)) (t u : Thread T) (fd : Fd) :
    ((L ++ [(t, fd)]).filter fun x => x.1 = u).map Prod.snd =
      (L.filter fun x => x.1 = u).map Prod.snd ++ if t = u then [fd] else [] := by
  rw [List.filter_append, List.map_append]
  by_cases hu : t = u <;> simp [hu]

theorem turn_booked (h : Booked s) (hs : Shape s nodes) (st : Turn s s') : Booked s' := by
  cases st with
  | move t p _ view => exact h.keep rfl rfl rfl (taking_of_view view)
  | acquire t p _ _ view => exact h.keep rfl rfl rfl (taking_of_view view)
  | release t p _ _ view => exact h.keep rfl rfl rfl (taking_of_view view)
  | close t pos | malloc t fd a pos | last t a pos => exact h.keep rfl rfl rfl (by rw [pos]; rfl)
  | broadcast t pos =>
    intro u
    have hv := broadcast_view s (show (s.pc t).view = _ by rw [pos]; rfl) u
    have hu := h u
    rw [← taking_of_view hv] at hu
    exact hu
  | link t fd a pos =>
    obtain ⟨-, -, htaken, hreturned⟩ := linkIn_rest { s with pushed := s.pushed ++ [fd] } a
    exact h.keep (congrArg (Function.update · t _) (linkIn_pc _ a)) hreturned htaken
      (by rw [pos]; rfl)
  | cut t a fd pos =>
    obtain ⟨tl, hcut⟩ := cutTail_eq s
    rw [hcut]
    exact h.keep rfl rfl rfl (by rw [pos]; rfl)
  | read t a fd j pos cell =>
    obtain rfl := hs.read_fd pos cell
    exact h.keep rfl rfl rfl (by rw [pos]; rfl)
  | unlink t a j pos cell =>
    intro u
    have hu := h u
    simp only [State.setPc, Function.update_apply, filter_concat, ← hu]
    by_cases hut : u = t
    · subst hut
      simp [pos, Pc.taking, Pc.fresh, Pc.job]
    · simp [hut, Ne.symm hut]
  | free t a fd pos =>
    intro u
    have hu := h u
    simp only [State.setPc, Function.update_apply, filter_concat, ← hu]
    by_cases hut : u = t
    · subst hut
      simp [pos, Pc.taking, Pc.fresh, Pc.job]
    · simp [hut, Ne.symm hut]
  | stuck => exact h

/-! ## Every run -/

structure Sound (s : State T) : Prop where
  exclusive : Exclusive s
  decided : Decided s
  shape : ∃ nodes, Shape s nodes
  booked : Booked s

theorem initial_sound : Sound (initial : State T) where
  exclusive t := by simp [initial, Pc.holds]
  decided t := trivial
  shape := by
    refine ⟨[], rfl, rfl, fun _ => rfl, ?_, ?_, ?_, ?_, ?_⟩
    · exact fun t a ht => nomatch ht
    · exact fun t a ht => nomatch ht
    · exact fun t a fd ht => nomatch ht
    · exact fun t a fd ht => nomatch ht
    · exact fun t u a fd fd' ht => nomatch ht
  booked t := rfl

theorem turn_sound (h : Sound s) (st : Turn s s') : Sound s' := by
  obtain ⟨nodes, hs⟩ := h.shape
  exact ⟨turn_exclusive h.exclusive st, turn_decided h.exclusive h.decided st,
    turn_shape hs h.exclusive h.decided st, turn_booked h.booked hs st⟩

theorem next_sound (h : Sound s) {e : Event T} (he : Enabled s e) : Sound (next s e) := by
  obtain ⟨m, hfirst, hsecond⟩ := next_turn he
  exact turn_sound (turn_sound h hfirst) hsecond

theorem run_sound {es : List (Event T)} (h : (machine T).Valid es) : Sound ((machine T).run es) :=
  Machine.invariant (M := machine T) initial_sound (fun _ _ hs he => next_sound hs he) h

/-- A thread follows no null or dangling pointer. -/
theorem Sound.pointers (h : Sound s) (t : Thread T) :
    (∀ a, s.pc t = .popUnlink a → ∃ j, s.heap a = some j) ∧
    (∀ a fd, s.pc t = .popRead a fd → ∃ j, s.heap a = some j) ∧
    (s.pc t = .popDecide → s.head = none → s.closed = true) ∧
    (∀ fd a b, s.pc t = .pushLink fd a → s.tail = some b → ∃ j, s.heap b = some j) := by
  obtain ⟨nodes, hs⟩ := h.shape
  refine ⟨fun a ha => ?_, fun a fd ha => ?_, fun ha hn => ?_, fun fd a b ha hb => ?_⟩
  · have hhead : s.head = some a := by simpa [ha, Pc.Sees] using h.decided t
    refine hs.cell (a := a) ?_
    have hchain := hs.chain
    rw [hhead] at hchain
    obtain ⟨rest, rfl⟩ := hchain.cons
    exact List.mem_cons_self
  · obtain ⟨-, hfd⟩ := hs.job t a fd (by rw [ha]; rfl)
    obtain ⟨j, hj, -⟩ := Option.map_eq_some_iff.mp hfd
    exact ⟨j, hj⟩
  · have hsees : s.head ≠ none ∨ s.closed = true := by simpa [ha, Pc.Sees] using h.decided t
    exact hsees.resolve_left fun hne => hne hn
  · have hend := hs.ended (h.exclusive.all_whole (by rw [ha]; rfl) (by rw [ha]; rfl))
    exact hs.cell (List.mem_of_getLast? (hend.symm.trans hb))

/-- No update is half done. -/
def Whole (s : State T) : Prop := ∀ t, (s.pc t).half = none

theorem Shape.pushed_eq (h : Shape s nodes) :
    ∃ rest, nodes.map s.fdAt = rest.map some ∧ s.pushed = s.taken.map Prod.snd ++ rest := by
  obtain ⟨fds, rest, hp, hfds, hrest⟩ := List.map_eq_append_iff.mp h.values
  refine ⟨rest, hrest.symm, ?_⟩
  have hinj : fds.map some = (s.taken.map Prod.snd).map some := by
    rw [hfds, List.map_map]
    rfl
  rw [hp, List.map_injective_iff.mpr (fun _ _ he => Option.some.inj he) hinj]

theorem count_by (L : List (Thread T × Fd)) (t : Thread T) (fd : Fd) :
    ((L.filter fun x => x.1 = t).map Prod.snd).count fd = L.count (t, fd) := by
  induction L with
  | nil => rfl
  | cons x L ih =>
    obtain ⟨u, g⟩ := x
    by_cases hu : u = t
    · simp [hu, List.count_cons, ih]
    · simp [hu, ih]

theorem Booked.subperm (h : Booked s) : s.returned.Subperm s.taken := by
  rw [List.subperm_ext_iff]
  rintro ⟨t, fd⟩ -
  rw [← count_by, ← count_by, ← h t]
  exact (List.prefix_append _ _).sublist.count_le fd

/-- After every run: between updates the links are the list of what is still in the queue, with
`tail` at its end; pops take what was pushed, in that order; each worker's pops return what they
took, in that order, so nothing is returned more often than it was pushed; and a pop that
gives up does so with the queue closed and everything pushed taken. -/
theorem jobs_handed_off (T : ℕ) (es : List (Event T)) (h : (machine T).Valid es) :
    let s := (machine T).run es
    (s.mutex = none → Whole s) ∧
    (Whole s → (s.head = none ↔ s.tail = none) ∧
      ∃ nodes, Chain s.link s.head nodes ∧ s.tail = nodes.getLast? ∧
        nodes.map s.fdAt = (s.pushed.drop s.taken.length).map some) ∧
    s.taken.map Prod.snd <+: s.pushed ∧
    (∀ t, (s.returned.filter fun x => x.1 = t).map Prod.snd <+:
      (s.taken.filter fun x => x.1 = t).map Prod.snd) ∧
    (s.returned.map Prod.snd).Subperm s.pushed ∧
    ∀ t, s.pc t = .popFail → s.closed = true ∧ s.taken.map Prod.snd = s.pushed := by
  intro s
  have hs : Sound s := run_sound h
  obtain ⟨nodes, hshape⟩ := hs.shape
  obtain ⟨rest, hrest, hpushed⟩ := hshape.pushed_eq
  have htaken : s.taken.map Prod.snd <+: s.pushed := by
    rw [hpushed]
    exact List.prefix_append _ _
  refine ⟨fun hfree t => ?_, fun hwhole => ?_, htaken, fun t => ?_, ?_, fun t ht => ?_⟩
  · by_contra hne
    exact hs.exclusive.free hfree t (holds_of_half hne)
  · have hend := hshape.ended hwhole
    refine ⟨?_, nodes, hshape.chain, hend, ?_⟩
    · rw [hshape.chain.head, hend]
      simp
    · rw [hrest, hpushed, ← List.length_map (f := Prod.snd), List.drop_left]
  · rw [← hs.booked t]
    exact List.prefix_append _ _
  · obtain ⟨l, hperm, hsub⟩ := hs.booked.subperm
    exact .trans ⟨l.map Prod.snd, hperm.map _, hsub.map _⟩ htaken.sublist.subperm
  · obtain ⟨hhead, hclosed⟩ : s.head = none ∧ s.closed = true := by
      simpa [ht, Pc.Sees] using hs.decided t
    have hnil : nodes = [] := by
      rw [hshape.chain.head] at hhead
      exact List.head?_eq_none_iff.mp hhead
    rw [hnil, List.map_nil] at hrest
    rw [List.map_eq_nil_iff.mp hrest.symm, List.append_nil] at hpushed
    exact ⟨hclosed, hpushed.symm⟩

/-- A worker waits, and when the signal wakes it another one has taken the job; the second job
is put into the cell of the first. -/
theorem jobs_handed_off_two_workers :
    let es : List (Event 2) :=
      [.call (.worker 0) .pop, .step (.worker 0), .step (.worker 0), .call .main (.push 7 1),
        .step .main, .step .main, .step .main, .signal (some 0), .step .main,
        .call (.worker 1) .pop, .step (.worker 1), .step (.worker 1), .step (.worker 1),
        .step (.worker 1), .step (.worker 1), .step (.worker 1), .step (.worker 0),
        .step (.worker 0), .step (.worker 1), .step (.worker 1), .call .main (.push 8 1),
        .step .main, .step .main, .step .main, .signal (some 0), .step .main, .step (.worker 0),
        .step (.worker 0), .step (.worker 0), .step (.worker 0), .step (.worker 0),
        .step (.worker 0), .step (.worker 0), .step (.worker 0), .call (.handler 0) .close,
        .step (.handler 0), .step (.handler 0), .step (.handler 0), .step (.handler 0),
        .call (.worker 1) .pop, .step (.worker 1), .step (.worker 1), .step (.worker 1)]
    let s := (machine 2).run es
    s.returned = [(.worker 1, 7), (.worker 0, 8)] ∧ s.pc (.worker 1) = .popFail ∧
      s.closed = true ∧ s.taken.map Prod.snd = s.pushed := by
  intro es s
  have hv : (machine 2).Valid es := by decide
  have hfail : s.pc (.worker 1) = .popFail := by decide
  exact ⟨by decide, hfail, (jobs_handed_off 2 es hv).2.2.2.2.2 (.worker 1) hfail⟩

end ThreadPoolHandoff
