import LinuxLabs.TlsConnections
import Mathlib.Data.List.Perm.Basic

/-! # How the TLS chat server ends (lab 16)
The loop over `epoll_wait` ends by a signal or a failure, and then the list is taken down. `opened`
and `freed` are the TLS sessions that were created and freed, each with the descriptor that is
closed with it. -/
namespace TlsShutdown

open Execution LinkedList TlsChatServer
open TlsConnections (Listed)

/-- `serving` is the handling of a batch, up to the test of `running`; `closing` is at the head of
the loop behind it. -/
inductive Stage where
  | serving
  | polling
  | closing (cur : Option Addr)
  | exited
  deriving DecidableEq

def Stage.cursor : Stage → Option Addr
  | .closing cur => cur
  | _ => none

/-- `late` counts the calls of `epoll_wait` that return after the signal. -/
structure State where
  chat : TlsChatServer.State
  running : Bool
  stage : Stage
  opened : List (ConnId × Fd)
  freed : List (ConnId × Fd)
  late : ℕ

def initial (listenFd : Fd) (reserved : Finset Fd) : State :=
  ⟨TlsChatServer.initial listenFd reserved, true, .serving, [], [], 0⟩

/-- `interrupted` is `epoll_wait` returning EINTR, and `pollFailed` any other error of it. A timeout
is a batch without events. -/
inductive Event where
  | signal
  | test
  | interrupted
  | pollFailed
  | poll (ready : List Ready)
  | chat (e : TlsChatServer.Event)
  | free
  | finish
  deriving DecidableEq

/-- The batch is done. -/
def Idle (s : TlsChatServer.State) : Prop := s.pos = .dispatch ∧ s.batch = []

def isPoll : TlsChatServer.Event → Bool
  | .poll _ => true
  | _ => false

def Enabled (s : State) : Event → Prop
  | .signal => True
  | .test => s.stage = .serving ∧ Idle s.chat
  | .interrupted | .pollFailed => s.stage = .polling
  | .poll ready => s.stage = .polling ∧ TlsChatServer.Enabled s.chat (.poll ready)
  | .chat e => s.stage = .serving ∧ isPoll e = false ∧ TlsChatServer.Enabled s.chat e
  | .free => s.stage.cursor ≠ none
  | .finish => s.stage = .closing none

/-- `SSL_new` for a client that was accepted. -/
def opens (s : TlsChatServer.State) : TlsChatServer.Event → List (ConnId × Fd)
  | .accept fd _ => [(s.accepted, fd)]
  | _ => []

def session (s : TlsChatServer.State) (a : Addr) : ConnId × Fd := ((s.nodes a).id, (s.nodes a).fd)

/-- `SSL_free` and `close` in `remove_connection`. -/
def frees (s : TlsChatServer.State) : TlsChatServer.Event → List (ConnId × Fd)
  | .advance =>
    match s.pos with
    | .cleanup h => if (s.nodes h.c).state = .closed then [session s h.c] else []
    | _ => []
  | _ => []

/-- A round of the last loop, which has read `next` before it frees the node. -/
def release (s : TlsChatServer.State) (cur : Addr) : TlsChatServer.State :=
  { s with
    registered := Function.update s.registered (s.nodes cur).fd none
    live := s.live.erase cur }

/-- One more return of `epoll_wait`. -/
def State.returned (s : State) : ℕ := if s.running then s.late else s.late + 1

def next (s : State) : Event → State
  | .signal => { s with running := false }
  | .test => { s with stage := if s.running then .polling else .closing s.chat.connections }
  | .interrupted => { s with stage := .serving, late := s.returned }
  | .pollFailed => { s with stage := .closing s.chat.connections, late := s.returned }
  | .poll ready =>
    { s with
      chat := TlsChatServer.next s.chat (.poll ready)
      stage := .serving
      late := s.returned }
  | .chat e =>
    { s with
      chat := TlsChatServer.next s.chat e
      opened := s.opened ++ opens s.chat e
      freed := s.freed ++ frees s.chat e }
  | .free =>
    match s.stage with
    | .closing (some cur) =>
      { s with
        chat := release s.chat cur
        stage := .closing (s.chat.next cur)
        freed := s.freed ++ [session s.chat cur] }
    | _ => s
  | .finish => { s with stage := .exited }

def machine (listenFd : Fd) (reserved : Finset Fd) : Machine State Event :=
  ⟨initial listenFd reserved, Enabled, next⟩

instance (listenFd : Fd) (reserved : Finset Fd) (s : State) (e : Event) :
    Decidable ((machine listenFd reserved).Enabled s e) := by
  simp only [machine]
  casesm Event <;> simp only [Enabled, Idle] <;> infer_instance

/-- The session `p` is open: its descriptor is in the epoll set. -/
def Open (s : TlsChatServer.State) (p : ConnId × Fd) : Prop := s.registered p.2 = some p.1

/-- What is left for the last loop. -/
structure Closing (s : TlsChatServer.State) (cur : Option Addr) (l : List Addr) : Prop where
  chain : Chain s.next cur l
  live : ∀ a, a ∈ s.live ↔ a ∈ l
  ids : ∀ a ∈ l, ∀ b ∈ l, (s.nodes a).id = (s.nodes b).id → a = b
  registered : ∀ fd id, s.registered fd = some id ↔
    ∃ a ∈ l, (s.nodes a).fd = fd ∧ (s.nodes a).id = id

/-- Every session is open or freed, and none is both. -/
structure Accounted (s : TlsChatServer.State) (opened freed : List (ConnId × Fd)) : Prop where
  known : ∀ p, p ∈ opened ↔ p ∈ freed ∨ Open s p
  apart : ∀ p ∈ freed, ¬ Open s p
  once : freed.Nodup
  numbered : ∀ p ∈ opened, p.1 < s.accepted
  ids : (opened.map Prod.fst).Nodup

structure Invariant (s : State) : Prop where
  accounted : Accounted s.chat s.opened s.freed
  serving : s.stage = .serving ∨ s.stage = .polling → ∃ l, TlsConnections.Invariant s.chat l
  idle : s.stage = .polling → Idle s.chat
  closing : ∀ cur, s.stage = .closing cur → ∃ l, Closing s.chat cur l
  exited : s.stage = .exited → s.chat.live = ∅ ∧ ∀ fd, s.chat.registered fd = none
  early : s.running = true → s.late = 0
  late : s.late ≤ 1 ∧ (s.stage = .polling → s.late = 0)

variable {s : State} {chat : TlsChatServer.State} {l : List Addr} {e : TlsChatServer.Event}
  {cur : Option Addr} {a : Addr} {p : ConnId × Fd}

/-! ## The sessions -/

theorem open_session (hl : Listed chat l) (ha : a ∈ l) : Open chat (session chat a) :=
  (hl.registered _ _).mpr ⟨a, ha, rfl, rfl⟩

/-- What one step of the chat does to the sessions. -/
structure Steps (s t : TlsChatServer.State) (opened freed : List (ConnId × Fd)) : Prop where
  kept : ∀ p, Open t p ↔ (Open s p ∧ p ∉ freed) ∨ p ∈ opened
  fresh : ∀ p ∈ opened, p.1 = s.accepted
  closed : ∀ p ∈ freed, Open s p ∧ p ∉ opened
  single : opened.length + freed.length ≤ 1
  accepted : t.accepted = s.accepted + opened.length

theorem steps_same {t : TlsChatServer.State} (hreg : t.registered = chat.registered)
    (hacc : t.accepted = chat.accepted) : Steps chat t [] [] := by
  refine ⟨fun p => ?_, nofun, nofun, Nat.zero_le 1, hacc⟩
  simp [Open, hreg]

theorem steps_release {t : TlsChatServer.State} (hopen : Open chat p)
    (hreg : t.registered = Function.update chat.registered p.2 none)
    (hacc : t.accepted = chat.accepted) : Steps chat t [] [p] := by
  refine ⟨fun q => ?_, nofun, fun q hq => ?_, Nat.le_refl 1, hacc⟩
  · rw [or_iff_left List.not_mem_nil, List.mem_singleton, Open, hreg, Function.update_apply]
    split_ifs with hfd
    · refine iff_of_false nofun ?_
      rintro ⟨hq, hne⟩
      apply hne
      have hid : some p.1 = some q.1 := by
        rw [← hq, hfd]
        exact hopen.symm
      exact Prod.ext (Option.some.inj hid).symm hfd
    · refine (and_iff_left ?_).symm
      rintro rfl
      exact hfd rfl
  · rw [List.mem_singleton.mp hq]
    exact ⟨hopen, List.not_mem_nil⟩

theorem steps_dispatch (hpos : chat.pos = .dispatch) : Steps chat (advance chat) [] [] := by
  unfold advance
  rw [hpos]
  cases chat.batch with
  | nil => exact steps_same rfl rfl
  | cons r rest => cases r <;> exact steps_same rfl rfl

/-- The search finds its connection. -/
theorem steps_finding {fd : Fd} {id : ConnId} {prev : Option Addr}
    (hpos : chat.pos = .finding fd id prev cur)
    (ha : TlsConnections.At chat l (.finding fd id prev cur)) :
    Steps chat (advance chat) [] [] := by
  obtain ⟨-, -, l₁, l₂, -, -, hc, a, hal, -⟩ := ha
  cases l₂ with
  | nil => cases hal
  | cons b l₂ =>
    subst hc
    unfold advance
    rw [hpos]
    dsimp only [List.head?_cons]
    split
    · exact steps_same rfl rfl
    · split <;> exact steps_same rfl rfl

theorem steps_broadcasting {h : Handler} {buf : List UInt8}
    (hpos : chat.pos = .broadcasting h buf cur) : Steps chat (advance chat) [] [] := by
  unfold advance
  rw [hpos]
  cases cur with
  | none => exact steps_same rfl rfl
  | some cur =>
    dsimp only
    split <;> exact steps_same rfl rfl

theorem steps_cleanup (hl : Listed chat l) {h : Handler} (hpos : chat.pos = .cleanup h)
    (hh : TlsConnections.Handles chat l h) :
    Steps chat (advance chat) [] (frees chat .advance) := by
  unfold advance frees
  rw [hpos]
  dsimp only
  split_ifs with hst
  · refine steps_release (open_session hl hh.mem) ?_ rfl
    change Function.update (Function.update chat.registered h.fd none) (chat.nodes h.c).fd none = _
    rw [session, hh.fd, Function.update_idem]
  · exact steps_same rfl rfl

theorem steps_accept {fd : Fd} (he : TlsChatServer.Enabled chat (.accept fd a)) :
    Steps chat (TlsChatServer.next chat (.accept fd a)) [(chat.accepted, fd)] [] := by
  obtain ⟨-, -, hfree, -⟩ := he
  refine ⟨fun p => ?_, fun p hp => ?_, nofun, Nat.le_refl 1, rfl⟩
  · change Function.update chat.registered fd (some chat.accepted) p.2 = _ ↔ _
    rw [Function.update_apply, List.mem_singleton]
    split_ifs with hfd
    · constructor
      · intro hid
        exact Or.inr (Prod.ext (Option.some.inj hid).symm hfd)
      · rintro (⟨hp, -⟩ | rfl)
        · rw [Open, hfd, hfree] at hp
          cases hp
        · rfl
    · constructor
      · exact fun hp => Or.inl ⟨hp, List.not_mem_nil⟩
      · rintro (⟨hp, -⟩ | rfl)
        · exact hp
        · exact absurd rfl hfd
  · rw [List.mem_singleton.mp hp]

theorem steps_next (hi : TlsConnections.Invariant chat l) (he : TlsChatServer.Enabled chat e) :
    Steps chat (TlsChatServer.next chat e) (opens chat e) (frees chat e) := by
  obtain ⟨hl, ha⟩ := hi
  cases e with
  | poll ready => exact steps_same rfl rfl
  | accept fd a => exact steps_accept he
  | acceptFailed => exact steps_same rfl rfl
  | advance =>
    simp only [TlsChatServer.next, opens]
    cases hpos : chat.pos with
    | dispatch =>
      simp only [frees, hpos]
      exact steps_dispatch hpos
    | finding fd id prev c =>
      simp only [frees, hpos]
      exact steps_finding hpos (hpos ▸ ha)
    | broadcasting h buf c =>
      simp only [frees, hpos]
      exact steps_broadcasting hpos
    | cleanup h =>
      rw [hpos] at ha
      exact steps_cleanup hl hpos ha
    | accepting | handshaking | reading | writing => simp only [TlsChatServer.Enabled, hpos] at he
  | sslAccept r =>
    simp only [TlsChatServer.next, opens, frees]
    cases chat.pos <;> cases r <;> exact steps_same rfl rfl
  | sslRead r =>
    simp only [TlsChatServer.next, opens, frees]
    cases chat.pos <;> cases r <;> exact steps_same rfl rfl
  | sslWrite r =>
    simp only [TlsChatServer.next, opens, frees]
    cases chat.pos <;> cases r <;> exact steps_same rfl rfl

/-! ## Each step -/

theorem Accounted.step {opened freed opened' freed' : List (ConnId × Fd)}
    (h : Accounted chat opened freed) {t : TlsChatServer.State}
    (hs : Steps chat t opened' freed') : Accounted t (opened ++ opened') (freed ++ freed') := by
  have hsingle := hs.single
  have hlater : ∀ p ∈ opened, ∀ q ∈ opened', p.1 ≠ q.1 := by
    intro p hp q hq heq
    have hlt := h.numbered p hp
    rw [heq, hs.fresh q hq] at hlt
    exact Nat.lt_irrefl _ hlt
  refine ⟨fun p => ?_, fun p hp => ?_, ?_, fun p hp => ?_, ?_⟩
  · rw [List.mem_append, List.mem_append, h.known, hs.kept]
    constructor
    · rintro ((hp | hp) | hp)
      · exact Or.inl (Or.inl hp)
      · by_cases hf : p ∈ freed'
        · exact Or.inl (Or.inr hf)
        · exact Or.inr (Or.inl ⟨hp, hf⟩)
      · exact Or.inr (Or.inr hp)
    · rintro ((hp | hp) | ⟨hp, -⟩ | hp)
      · exact Or.inl (Or.inl hp)
      · exact Or.inl (Or.inr (hs.closed p hp).1)
      · exact Or.inl (Or.inr hp)
      · exact Or.inr hp
  · rw [hs.kept]
    rcases List.mem_append.mp hp with hp | hp
    · rintro (⟨ho, -⟩ | ho)
      · exact h.apart p hp ho
      · exact hlater p ((h.known p).mpr (Or.inl hp)) p ho rfl
    · rintro (⟨-, hne⟩ | ho)
      · exact hne hp
      · exact (hs.closed p hp).2 ho
  · refine List.nodup_append.mpr ⟨h.once, ?_, fun p hp q hq heq => ?_⟩
    · exact List.nodup_iff_count_le_one.mpr fun p => (List.count_le_length).trans (by omega)
    · exact h.apart p hp (heq ▸ (hs.closed q hq).1)
  · rw [hs.accepted]
    rcases List.mem_append.mp hp with hp | hp
    · exact Nat.lt_add_right _ (h.numbered p hp)
    · rw [hs.fresh p hp]
      exact Nat.lt_add_of_pos_right (List.length_pos_of_mem hp)
  · rw [List.map_append]
    refine List.nodup_append.mpr ⟨h.ids, ?_, fun i hi j hj heq => ?_⟩
    · refine List.nodup_iff_count_le_one.mpr fun i => (List.count_le_length).trans ?_
      rw [List.length_map]
      omega
    · obtain ⟨p, hp, rfl⟩ := List.mem_map.mp hi
      obtain ⟨q, hq, rfl⟩ := List.mem_map.mp hj
      exact hlater p hp q hq heq

theorem closing_start (hl : Listed chat l) : Closing chat chat.connections l :=
  ⟨hl.chain, hl.live, hl.ids, hl.registered⟩

/-- A round of the last loop frees a node that is allocated, and goes on behind it. -/
theorem Closing.release (h : Closing chat (some a) l) :
    a ∈ chat.live ∧ Open chat (session chat a) ∧
      ∃ m, Closing (release chat a) (chat.next a) m := by
  obtain ⟨m, rfl⟩ := h.chain.cons
  have hnodup := List.nodup_cons.mp h.chain.nodup
  have hopen : Open chat (session chat a) :=
    (h.registered _ _).mpr ⟨a, List.mem_cons_self, rfl, rfl⟩
  have hids : ∀ b ∈ m, ∀ c ∈ m, (chat.nodes b).id = (chat.nodes c).id → b = c := fun b hb c hc =>
    h.ids b (List.mem_cons_of_mem _ hb) c (List.mem_cons_of_mem _ hc)
  refine ⟨(h.live a).mpr List.mem_cons_self, hopen, m, h.chain.2, fun b => ?_, hids,
    fun fd id => ?_⟩
  · change b ∈ chat.live.erase a ↔ _
    rw [Finset.mem_erase, h.live, List.mem_cons]
    constructor
    · rintro ⟨hne, hb⟩
      exact hb.resolve_left hne
    · intro hb
      refine ⟨?_, Or.inr hb⟩
      rintro rfl
      exact hnodup.1 hb
  · change Function.update chat.registered (chat.nodes a).fd none fd = _ ↔ _
    rw [Function.update_apply]
    split_ifs with hfd
    · refine iff_of_false nofun ?_
      rintro ⟨b, hb, hbfd, -⟩
      have hfds : (chat.nodes b).fd = (chat.nodes a).fd := hbfd.trans hfd
      have hb' : chat.registered (chat.nodes b).fd = some (chat.nodes b).id :=
        (h.registered _ _).mpr ⟨b, List.mem_cons_of_mem _ hb, rfl, rfl⟩
      rw [hfds] at hb'
      have hid := Option.some.inj (hb'.symm.trans hopen)
      obtain rfl := h.ids b (List.mem_cons_of_mem _ hb) a List.mem_cons_self hid
      exact hnodup.1 hb
    · rw [h.registered]
      constructor
      · rintro ⟨b, hb, hbfd, hbid⟩
        rcases List.mem_cons.mp hb with rfl | hb
        · exact absurd hbfd.symm hfd
        · exact ⟨b, hb, hbfd, hbid⟩
      · rintro ⟨b, hb, hbfd, hbid⟩
        exact ⟨b, List.mem_cons_of_mem _ hb, hbfd, hbid⟩

theorem Closing.done (h : Closing chat none l) :
    chat.live = ∅ ∧ ∀ fd, chat.registered fd = none := by
  obtain rfl : l = [] := by
    cases l with
    | nil => rfl
    | cons a l => cases h.chain.1
  refine ⟨Finset.eq_empty_of_forall_notMem fun a ha => ?_, fun fd => ?_⟩
  · cases (h.live a).mp ha
  · cases hr : chat.registered fd with
    | none => rfl
    | some id =>
      obtain ⟨a, ha, -⟩ := (h.registered fd id).mp hr
      cases ha

theorem initial_invariant (listenFd : Fd) (reserved : Finset Fd) :
    Invariant (initial listenFd reserved) where
  accounted := by
    refine ⟨fun p => ?_, nofun, List.nodup_nil, nofun, List.nodup_nil⟩
    simp [initial, Open, TlsChatServer.initial]
  serving _ := ⟨[], TlsConnections.initial_invariant listenFd reserved⟩
  idle := nofun
  closing _ := nofun
  exited := nofun
  early _ := rfl
  late := ⟨Nat.zero_le 1, fun _ => rfl⟩

theorem Invariant.returned (h : Invariant s) (hstage : s.stage = .polling) :
    (s.running = true → s.returned = 0) ∧ s.returned ≤ 1 := by
  have hzero := h.late.2 hstage
  unfold State.returned
  constructor
  · intro hr
    rw [if_pos hr, hzero]
  · split_ifs <;> omega

theorem Invariant.leave (h : Invariant s) (hstage : s.stage = .serving ∨ s.stage = .polling)
    (late : ℕ) (hearly : s.running = true → late = 0) (hlate : late ≤ 1) :
    Invariant { s with stage := .closing s.chat.connections, late := late } := by
  obtain ⟨l, hl, -⟩ := h.serving hstage
  refine ⟨h.accounted, ?_, nofun, ?_, nofun, hearly, hlate, nofun⟩
  · rintro (hs | hs) <;> cases hs
  · intro cur hcur
    obtain rfl := Stage.closing.inj hcur
    exact ⟨l, closing_start hl⟩

/-- What the handling of a batch keeps. -/
theorem Invariant.serve (h : Invariant s) (hstage : s.stage = .serving ∨ s.stage = .polling)
    (he : TlsChatServer.Enabled s.chat e) (late : ℕ) (hearly : s.running = true → late = 0)
    (hlate : late ≤ 1) :
    Invariant { s with
      chat := TlsChatServer.next s.chat e
      stage := .serving
      opened := s.opened ++ opens s.chat e
      freed := s.freed ++ frees s.chat e
      late := late } := by
  obtain ⟨l, hi⟩ := h.serving hstage
  refine ⟨h.accounted.step (steps_next hi he), fun _ => TlsConnections.step_invariant hi he, nofun,
    ?_, nofun, hearly, hlate, nofun⟩
  intro cur hcur
  cases hcur

theorem Invariant.free (h : Invariant s) (hstage : s.stage = .closing (some a)) :
    Invariant (next s .free) := by
  obtain ⟨l, hl⟩ := h.closing _ hstage
  obtain ⟨-, hopen, m, hm⟩ := hl.release
  have hacc := h.accounted.step (steps_release (t := release s.chat a) hopen rfl rfl)
  rw [List.append_nil] at hacc
  simp only [next, hstage]
  refine ⟨hacc, ?_, nofun, ?_, nofun, h.early, h.late.1, nofun⟩
  · rintro (hs | hs) <;> cases hs
  · intro cur hcur
    obtain rfl := Stage.closing.inj hcur
    exact ⟨m, hm⟩

theorem step_invariant {e : Event} (h : Invariant s) (he : Enabled s e) :
    Invariant (next s e) := by
  cases e with
  | signal =>
    exact ⟨h.accounted, h.serving, h.idle, h.closing, h.exited, nofun, h.late⟩
  | test =>
    obtain ⟨hstage, hidle⟩ := he
    cases hr : s.running with
    | false =>
      simp only [next, hr, Bool.false_eq_true, if_false]
      exact hr ▸ h.leave (Or.inl hstage) s.late h.early h.late.1
    | true =>
      have hearly := h.early hr
      simp only [next, hr, if_true]
      refine ⟨h.accounted, fun _ => h.serving (Or.inl hstage), fun _ => hidle, ?_, nofun,
        fun _ => hearly, h.late.1, fun _ => hearly⟩
      intro cur hcur
      cases hcur
  | interrupted =>
    obtain ⟨hearly, hlate⟩ := h.returned he
    refine ⟨h.accounted, fun _ => h.serving (Or.inr he), nofun, ?_, nofun, hearly, hlate, nofun⟩
    intro cur hcur
    cases hcur
  | pollFailed =>
    obtain ⟨hearly, hlate⟩ := h.returned he
    exact h.leave (Or.inr he) s.returned hearly hlate
  | poll ready =>
    obtain ⟨hstage, hpoll⟩ := he
    obtain ⟨hearly, hlate⟩ := h.returned hstage
    have hserve := h.serve (Or.inr hstage) hpoll s.returned hearly hlate
    simp only [opens, frees, List.append_nil] at hserve
    exact hserve
  | chat e =>
    obtain ⟨hstage, -, hchat⟩ := he
    have hserve := h.serve (Or.inl hstage) hchat s.late h.early h.late.1
    rw [← hstage] at hserve
    exact hserve
  | free =>
    cases hstage : s.stage with
    | closing cur =>
      cases cur with
      | none => exact absurd (by rw [hstage]; rfl) he
      | some a => exact h.free hstage
    | serving | polling | exited => exact absurd (by rw [hstage]; rfl) he
  | finish =>
    obtain ⟨l, hl⟩ := h.closing _ he
    refine ⟨h.accounted, ?_, nofun, ?_, fun _ => hl.done, h.early, h.late.1, nofun⟩
    · rintro (hs | hs) <;> cases hs
    · intro cur hcur
      cases hcur

/-! ## The end of the server -/

/-- No session is freed twice, the last loop never touches a freed node, and when the server exits
each session that was created is freed and its descriptor closed. After the signal `epoll_wait`
returns at most once. -/
structure Released (s : State) : Prop where
  ids : (s.opened.map Prod.fst).Nodup
  once : s.freed.Nodup
  freed : ∀ p, p ∈ s.freed ↔ p ∈ s.opened ∧ ¬ Open s.chat p
  allocated : ∀ a ∈ s.stage.cursor, a ∈ s.chat.live
  exited : s.stage = .exited →
    s.freed.Perm s.opened ∧ s.chat.live = ∅ ∧ ∀ fd, s.chat.registered fd = none
  late : s.late ≤ 1

theorem Accounted.perm {opened freed : List (ConnId × Fd)} (h : Accounted chat opened freed)
    (hnone : ∀ fd, chat.registered fd = none) : freed.Perm opened := by
  apply (List.perm_ext_iff_of_nodup h.once (List.Nodup.of_map _ h.ids)).mpr
  intro p
  rw [h.known, or_iff_left]
  intro hp
  rw [Open, hnone] at hp
  cases hp

theorem released_at_exit (listenFd : Fd) (reserved : Finset Fd) {es : List Event}
    (h : (machine listenFd reserved).Valid es) :
    Released ((machine listenFd reserved).run es) := by
  have hinv : Invariant ((machine listenFd reserved).run es) :=
    Machine.invariant (I := Invariant) (initial_invariant listenFd reserved)
      (fun _ _ hs he => step_invariant hs he) h
  generalize (machine listenFd reserved).run es = s at hinv ⊢
  have hacc := hinv.accounted
  refine ⟨hacc.ids, hacc.once, fun p => ?_, fun a ha => ?_, fun hstage => ?_, hinv.late.1⟩
  · rw [hacc.known]
    constructor
    · exact fun hp => ⟨Or.inl hp, hacc.apart p hp⟩
    · rintro ⟨hp, hnot⟩
      exact hp.resolve_right hnot
  · cases hstage : s.stage with
    | closing cur =>
      rw [hstage] at ha
      obtain rfl : cur = some a := ha
      obtain ⟨l, hl⟩ := hinv.closing _ hstage
      exact hl.release.1
    | serving | polling | exited =>
      rw [hstage] at ha
      cases ha
  · obtain ⟨hlive, hnone⟩ := hinv.exited hstage
    exact ⟨hacc.perm hnone, hlive, hnone⟩

/-- Two clients; the signal comes while a batch is handled, in which the first one fails. -/
def stoppedRun : List Event :=
  [.test, .poll [.listener], .chat .advance, .chat (.accept 5 50), .chat (.accept 6 60),
    .chat .acceptFailed, .test, .poll [.conn 5 0], .signal, .chat .advance, .chat .advance,
    .chat .advance, .chat (.sslAccept .fatal), .chat .advance, .test, .free, .finish]

theorem released_at_exit_stopped :
    Released ((machine 3 {0, 1, 2, 4}).run stoppedRun) ∧
      ((machine 3 {0, 1, 2, 4}).run stoppedRun).stage = .exited ∧
      ((machine 3 {0, 1, 2, 4}).run stoppedRun).freed = [(0, 5), (1, 6)] :=
  ⟨released_at_exit 3 {0, 1, 2, 4} (by decide +kernel), by decide +kernel, by decide +kernel⟩

end TlsShutdown
