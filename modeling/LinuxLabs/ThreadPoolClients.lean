import LinuxLabs.KeyedTable
import LinuxLabs.Mutex
import LinuxLabs.ThreadPoolServer
import Mathlib.Logic.Equiv.Basic

/-! # The thread-pool chat server's client list
A connection is in one place at a time: the main thread's hands, the queue, or one worker.
That place closes the descriptor, after `remove_client`, so a descriptor on the list is
open and still the one its node was made for. -/
namespace ThreadPoolClients

open Execution ThreadPoolServer

variable {T : ℕ}

structure ClientsSafe (s : State T) : Prop where
  distinct : KeyedTable.Distinct Node.fd s.clients
  named : ∀ n ∈ s.clients, s.sockets n.fd = some (.connection n.conn)
  unique : ∀ fd fd' c, s.sockets fd = some (.connection c) →
    s.sockets fd' = some (.connection c) → fd = fd'
  broadcast : ∀ w n msg c rest sent, s.worker w = .broadcasting n msg (c :: rest) sent →
    (c :: rest) <:+ s.clients ∧ s.sockets c.fd = some (.connection c.conn)

/-! ## One place at a time -/

inductive Place (T : ℕ) where
  | main
  | job (i : ℕ)
  | worker (w : Fin T)
  deriving DecidableEq

/-- The connection `main` has accepted and not queued yet. -/
def accepting : MainPc → Option Node
  | .pushing n => some n
  | _ => none

def listening : MainPc → Bool
  | .testing | .accepting | .pushing _ | .closingListener => true
  | .closingQueue | .joining | .sweeping | .exited => false

def held (s : State T) : Place T → Option Node
  | .main => accepting s.main
  | .job i => s.jobs[i]?
  | .worker w => (s.worker w).node

structure Exclusive (s : State T) : Prop where
  named : ∀ p n, held s p = some n → s.sockets n.fd = some (.connection n.conn)
  apart : ∀ p q n m, held s p = some n → held s q = some m → n.fd = m.fd → p = q
  issued : ∀ fd c, s.sockets fd = some (.connection c) → fd ≤ intMax ∧ c < s.accepted
  unique : ∀ fd fd' c, s.sockets fd = some (.connection c) →
    s.sockets fd' = some (.connection c) → fd = fd'
  listener : listening s.main → s.sockets s.listenFd = some .listener

structure Listed (s : State T) : Prop where
  listed : ∀ n, n ∈ s.clients ↔ ∃ w, (s.worker w).listed = some n
  distinct : KeyedTable.Distinct Node.fd s.clients
  holder : ∀ w, s.clientsMutex = some w ↔ ∃ rest, (s.worker w).cursor = some rest
  cursor : ∀ w rest, (s.worker w).cursor = some rest → rest <:+ s.clients
  joined : s.main = .sweeping ∨ s.main = .exited → ∀ w, s.worker w = .exited

theorem node_of_listed {pc : WorkerPc} {n : Node} (h : pc.listed = some n) : pc.node = some n := by
  cases pc <;> first | exact h | cases h

theorem held_worker {s : State T} {w : Fin T} {n : Node} (h : (s.worker w).listed = some n) :
    held s (.worker w) = some n := node_of_listed h

theorem held_setWorker (s : State T) (w : Fin T) (pc : WorkerPc) (p : Place T) :
    held (s.setWorker w pc) p = if p = .worker w then pc.node else held s p := by
  cases p with
  | main | job i => simp [held, State.setWorker]
  | worker v =>
    by_cases hv : v = w
    · subst v
      simp [held]
    · simp [held, hv]

/-- A step that opens and closes nothing and only moves connections between places. -/
theorem Exclusive.moved {s s' : State T} (h : Exclusive s) (f : Place T → Place T)
    (hf : Function.Injective f) (hheld : ∀ p n, held s' p = some n → held s (f p) = some n)
    (hsock : s'.sockets = s.sockets) (hacc : s'.accepted = s.accepted)
    (hfd : s'.listenFd = s.listenFd) (hmain : listening s'.main → listening s.main) :
    Exclusive s' where
  named p n hp := by
    rw [hsock]
    exact h.named _ n (hheld p n hp)
  apart p q n m hp hq hfd := hf (h.apart _ _ n m (hheld p n hp) (hheld q m hq) hfd)
  issued := by
    rw [hsock, hacc]
    exact h.issued
  unique := by
    rw [hsock]
    exact h.unique
  listener hl := by
    rw [hsock, hfd]
    exact h.listener (hmain hl)

/-- Where a job was before a pop by worker `w`. -/
def beforePop (w : Fin T) : Place T → Place T
  | .main => .main
  | .job i => .job (i + 1)
  | .worker v => if v = w then .job 0 else .worker v

theorem beforePop_injective (w : Fin T) : Function.Injective (beforePop w) := by
  intro p q h
  cases p <;> cases q <;> simp only [beforePop] at h <;> grind

theorem Exclusive.fd_ne {s : State T} (h : Exclusive s) {p q : Place T} {n m : Node}
    (hp : held s p = some n) (hq : held s q = some m) (hpq : p ≠ q) : n.fd ≠ m.fd :=
  fun hfd => hpq (h.apart p q n m hp hq hfd)

/-- Closing a descriptor that no place holds any more. -/
theorem Exclusive.closed {s s' : State T} (h : Exclusive s) (fd : Fd)
    (hheld : ∀ p n, held s' p = some n → held s p = some n ∧ n.fd ≠ fd)
    (hsock : s'.sockets = Function.update s.sockets fd none) (hacc : s'.accepted = s.accepted)
    (hl : listening s'.main → s'.listenFd ≠ fd ∧ s'.listenFd = s.listenFd ∧ listening s.main) :
    Exclusive s' := by
  have hopen : ∀ fd' k, s'.sockets fd' = some k → s.sockets fd' = some k := by
    intro fd' k hk
    rw [hsock, Function.update_apply] at hk
    split at hk
    · cases hk
    · exact hk
  constructor
  · intro p n hp
    obtain ⟨hp, hne⟩ := hheld p n hp
    rw [hsock, Function.update_of_ne hne]
    exact h.named p n hp
  · intro p q n m hp hq
    exact h.apart p q n m (hheld p n hp).1 (hheld q m hq).1
  · intro fd' c hc
    rw [hacc]
    exact h.issued fd' c (hopen _ _ hc)
  · intro a b c ha hb
    exact h.unique a b c (hopen _ _ ha) (hopen _ _ hb)
  · intro hlis
    obtain ⟨hne, hfd, hlis⟩ := hl hlis
    rw [hsock, Function.update_of_ne hne, hfd]
    exact h.listener hlis

theorem Exclusive.pop {s : State T} (h : Exclusive s) (w : Fin T) {n : Node} {jobs : List Node}
    (queue : s.jobs = n :: jobs) :
    Exclusive ({ s with jobs := jobs }.setWorker w (.adding n)) := by
  refine h.moved (beforePop w) (beforePop_injective w) (fun p m hp => ?_) rfl rfl rfl id
  rw [held_setWorker] at hp
  cases p with
  | main => exact hp
  | job i => simpa [held, beforePop, queue, WorkerPc.node] using hp
  | worker v =>
    by_cases hv : v = w
    · subst v
      simpa [held, beforePop, queue, WorkerPc.node] using hp
    · simpa [held, beforePop, hv] using hp

theorem Exclusive.close {s : State T} (h : Exclusive s) {w : Fin T} {n : Node}
    (at_ : s.worker w = .closing n) : Exclusive ((s.close n.fd).setWorker w .top) := by
  have hw : held s (.worker w) = some n := by simp [held, at_, WorkerPc.node]
  refine h.closed n.fd (fun p m hp => ?_) rfl rfl (fun hl => ⟨?_, rfl, hl⟩)
  · rw [held_setWorker] at hp
    split at hp
    · cases hp
    · next hne =>
      have hp : held s p = some m := by cases p <;> exact hp
      exact ⟨hp, h.fd_ne hp hw hne⟩
  · intro heq
    have hlis := h.listener hl
    change s.listenFd = n.fd at heq
    rw [heq, h.named _ n hw] at hlis
    cases hlis

theorem Exclusive.worker {s s' : State T} {w : Fin T} {e : WorkerEvent} (h : Exclusive s)
    (st : WorkerStep s w e s') : Exclusive s' := by
  -- every kind of step but `pop` and `close` leaves all connections where they are
  have hstay (s₁ : State T) (pc : WorkerPc) (hn : pc.node = (s.worker w).node)
      (hheld : ∀ p, held s₁ p = held s p) (hsock : s₁.sockets = s.sockets)
      (hacc : s₁.accepted = s.accepted) (hfd : s₁.listenFd = s.listenFd)
      (hmain : s₁.main = s.main) : Exclusive (s₁.setWorker w pc) := by
    refine h.moved id Function.injective_id (fun p n hp => ?_) hsock hacc hfd (fun hl => ?_)
    · rw [held_setWorker] at hp
      split at hp
      · next heq =>
        subst heq
        rw [hn] at hp
        exact hp
      · exact hheld p ▸ hp
    · exact hmain ▸ hl
  cases st with
  | move e pc node => exact hstay s pc node (fun _ => rfl) rfl rfl rfl rfl
  | pop n jobs at_ queue => exact h.pop w queue
  | receive n chunk at_ => exact hstay s _ (by rw [at_]; rfl) (fun _ => rfl) rfl rfl rfl rfl
  | interrupted => exact h
  | giveUp r n msg c rest sent at_ =>
    exact hstay s _ (by rw [at_]; rfl) (fun _ => rfl) rfl rfl rfl rfl
  | advance n msg c rest sent at_ =>
    exact hstay s _ (by rw [at_]; rfl) (fun _ => rfl) rfl rfl rfl rfl
  | add n at_ => exact hstay _ _ (by rw [at_]; rfl) (fun p => by cases p <;> rfl) rfl rfl rfl rfl
  | lock n msg at_ =>
    exact hstay _ _ (by rw [at_]; rfl) (fun p => by cases p <;> rfl) rfl rfl rfl rfl
  | send n msg c rest sent k at_ =>
    exact hstay _ _ (by rw [at_]; rfl) (fun p => by cases p <;> rfl) rfl rfl rfl rfl
  | unlock n msg sent at_ =>
    exact hstay _ _ (by rw [at_]; rfl) (fun p => by cases p <;> rfl) rfl rfl rfl rfl
  | remove n at_ =>
    exact hstay _ _ (by rw [at_]; rfl) (fun p => by cases p <;> rfl) rfl rfl rfl rfl
  | close n at_ => exact h.close at_

theorem Listed.swept {s : State T} (h : Listed s) (hm : s.main = .sweeping) : s.clients = [] := by
  refine List.eq_nil_iff_forall_not_mem.mpr fun n hn => ?_
  obtain ⟨w, hw⟩ := (h.listed n).mp hn
  rw [h.joined (Or.inl hm) w] at hw
  cases hw

/-- A connection the kernel has just opened, in the main thread's hands. -/
theorem Exclusive.accept {s : State T} (h : Exclusive s) (hm : s.main = .accepting) {fd : Fd}
    (hmax : fd ≤ intMax) (hfree : s.sockets fd = none) :
    Exclusive (mainNext s .accepting (.accept fd)) := by
  have hold : ∀ p n, held s p = some n → n.fd ≠ fd := by
    rintro p n hp rfl
    rw [h.named p n hp] at hfree
    cases hfree
  have hheld : ∀ p n, held (mainNext s .accepting (.accept fd)) p = some n →
      (p = .main ∧ n = ⟨fd, s.accepted⟩) ∨ held s p = some n := by
    intro p n hp
    cases p with
    | main => exact Or.inl ⟨rfl, (Option.some.inj hp).symm⟩
    | job i => exact Or.inr hp
    | worker w => exact Or.inr hp
  have hsock : ∀ (fd' : Fd) (c : ℕ),
      (mainNext s .accepting (.accept fd)).sockets fd' = some (.connection c) →
      (fd' = fd ∧ c = s.accepted) ∨ (s.sockets fd' = some (.connection c) ∧ c < s.accepted) := by
    intro fd' c hc
    simp only [mainNext, Function.update_apply] at hc
    split at hc
    · next heq => exact Or.inl ⟨heq, (Socket.connection.inj (Option.some.inj hc)).symm⟩
    · exact Or.inr ⟨hc, (h.issued fd' c hc).2⟩
  constructor
  · intro p n hp
    rcases hheld p n hp with ⟨_, rfl⟩ | hp
    · exact Function.update_self ..
    · simp only [mainNext, Function.update_of_ne (hold p n hp)]
      exact h.named p n hp
  · intro p q n m hp hq hfd
    rcases hheld p n hp with ⟨rfl, rfl⟩ | hp <;> rcases hheld q m hq with ⟨rfl, rfl⟩ | hq
    · rfl
    · exact absurd hfd.symm (hold q m hq)
    · exact absurd hfd (hold p n hp)
    · exact h.apart p q n m hp hq hfd
  · intro fd' c hc
    change fd' ≤ intMax ∧ c < s.accepted + 1
    rcases hsock fd' c hc with ⟨rfl, rfl⟩ | ⟨hold, hlt⟩
    · exact ⟨hmax, Nat.lt_succ_self _⟩
    · exact ⟨(h.issued fd' c hold).1, Nat.lt_succ_of_lt hlt⟩
  · intro a b c ha hb
    rcases hsock a c ha with ⟨ha, hc⟩ | ⟨ha, hlt⟩ <;>
      rcases hsock b c hb with ⟨hb, hc'⟩ | ⟨hb, hlt'⟩
    · rw [ha, hb]
    · omega
    · omega
    · exact h.unique a b c ha hb
  · intro _
    have hlis := h.listener (by rw [hm]; rfl)
    have hne : s.listenFd ≠ fd := by
      rintro rfl
      rw [hlis] at hfree
      cases hfree
    simp only [mainNext, Function.update_of_ne hne]
    exact hlis

theorem Exclusive.push {s : State T} (h : Exclusive s) {n : Node} (hm : s.main = .pushing n) :
    Exclusive (mainNext s (.pushing n) .push) := by
  refine h.moved (Equiv.swap .main (.job s.jobs.length)) (Equiv.injective _) (fun p m hp => ?_)
    rfl rfl rfl (by simp [hm, listening])
  cases p with
  | main => cases hp
  | worker w =>
    rw [Equiv.swap_apply_of_ne_of_ne (by simp) (by simp)]
    exact hp
  | job i =>
    simp only [held, mainNext] at hp
    rcases lt_trichotomy i s.jobs.length with hi | rfl | hi
    · rw [List.getElem?_append_left hi] at hp
      rw [Equiv.swap_apply_of_ne_of_ne (by simp) (by simp; omega)]
      exact hp
    · rw [Equiv.swap_apply_right]
      simpa [held, hm, accepting] using hp
    · rw [List.getElem?_eq_none (by simp; omega)] at hp
      cases hp

theorem Exclusive.closeListener {s : State T} (h : Exclusive s) (hm : s.main = .closingListener) :
    Exclusive (mainNext s .closingListener .closeListener) := by
  refine h.closed s.listenFd (fun p n hp => ?_) rfl rfl (fun hlis => ?_)
  · have hp : held s p = some n := by
      cases p with
      | main => cases hp
      | job i => exact hp
      | worker w => exact hp
    refine ⟨hp, fun heq => ?_⟩
    have hlis := h.listener (by rw [hm]; rfl)
    rw [← heq, h.named p n hp] at hlis
    cases hlis
  · cases hlis

theorem Exclusive.main {s : State T} (h : Exclusive s) (hl : Listed s) {e : MainEvent}
    (he : MainEnabled s s.main e) : Exclusive (mainNext s s.main e) := by
  have hstay (pc : MainPc) (hpc : accepting pc = none) (hlis : listening pc → listening s.main) :
      Exclusive (s.setMain pc) := by
    refine h.moved id Function.injective_id (fun p n hp => ?_) rfl rfl rfl hlis
    cases p with
    | main => exact absurd (hpc.symm.trans hp) (by simp)
    | job i => exact hp
    | worker w => exact hp
  generalize hm : s.main = pc at he
  unfold MainEnabled at he
  split at he
  · exact hstay _ (by split <;> rfl) (by simp [hm, listening])
  · exact h.accept hm he.1 he.2
  · exact hstay _ (by split <;> rfl) (by simp [hm, listening])
  · exact h.push hm
  · exact h.closeListener hm
  · refine h.moved id Function.injective_id (fun p n hp => ?_) rfl rfl rfl
      (by simp [mainNext, listening])
    cases p with
    | main => cases hp
    | job i => exact hp
    | worker w => exact hp
  · exact hstay _ rfl (by simp [listening])
  · have hswept : mainNext s .sweeping .sweep = s.setMain .exited := by
      simp [mainNext, State.setMain, hl.swept hm]
    rw [hswept]
    exact hstay .exited rfl (by simp [listening])
  · exact he.elim

/-! ## The list is what the workers have put on it -/

theorem listed_setWorker (s : State T) (w : Fin T) (pc : WorkerPc) (n : Node) :
    (∃ v, ((s.setWorker w pc).worker v).listed = some n) ↔
      pc.listed = some n ∨ ∃ v, v ≠ w ∧ (s.worker v).listed = some n :=
  Function.exists_update_iff s.worker fun _ pc => pc.listed = some n

theorem listed_split (s : State T) (w : Fin T) (n : Node) :
    (∃ v, (s.worker v).listed = some n) ↔
      (s.worker w).listed = some n ∨ ∃ v, v ≠ w ∧ (s.worker v).listed = some n := by
  rw [← listed_setWorker, setWorker_self rfl]

theorem removeClient_clients {s : State T} (h : Listed s) (fd : Fd) :
    (s.removeClient fd).clients = s.clients.filter fun c => c.fd ≠ fd :=
  h.distinct.eraseP_eq_filter fd

theorem Listed.free {s : State T} (h : Listed s) {w : Fin T}
    (hw : (s.worker w).cursor ≠ none) : s.clientsMutex = some w :=
  (h.holder w).mpr (Option.ne_none_iff_exists'.mp hw)

/-- A worker's step, for the list: who is on it, and what becomes of the mutex. -/
theorem Listed.stepped {s s₁ : State T} (h : Listed s) {w : Fin T} {pc : WorkerPc}
    (hmain : s₁.main = s.main) (hworker : s₁.worker = s.worker) (alive : s.worker w ≠ .exited)
    (hlisted : ∀ n, n ∈ s₁.clients ↔
      pc.listed = some n ∨ ∃ v, v ≠ w ∧ (s.worker v).listed = some n)
    (hdistinct : KeyedTable.Distinct Node.fd s₁.clients)
    (hclients : s₁.clients = s.clients ∨ s.clientsMutex = none)
    (htake : pc.cursor ≠ none → (s.worker w).cursor ≠ none ∨ s.clientsMutex = none)
    (hmutex : s₁.clientsMutex = if pc.cursor ≠ none then some w
      else if (s.worker w).cursor ≠ none then none else s.clientsMutex)
    (hcursor : ∀ rest, pc.cursor = some rest → rest <:+ s₁.clients) :
    Listed (s₁.setWorker w pc) := by
  constructor
  · intro n
    rw [listed_setWorker, hworker]
    exact hlisted n
  · exact hdistinct
  · have hold : Mutex.Owned s.clientsMutex fun v => (s.worker v).cursor ≠ none := fun v =>
      (h.holder v).trans Option.ne_none_iff_exists'.symm
    have hself : (Function.update s₁.worker w pc w).cursor = pc.cursor := by
      rw [Function.update_self]
    have hnew : Mutex.Owned s₁.clientsMutex
        fun v => (Function.update s₁.worker w pc v).cursor ≠ none := by
      refine hold.step (i := w) (fun v hv => ?_) ?_ ?_ ?_ ?_
      · rw [Function.update_of_ne hv, hworker]
      all_goals rw [hself]
      · exact htake
      · intro hc
        rw [hmutex, if_pos hc]
      · intro hc hw
        rw [hmutex, if_neg hc, if_pos hw]
      · intro hc hw
        rw [hmutex, if_neg hc, if_neg hw]
    exact fun v => (hnew v).trans Option.ne_none_iff_exists'
  · intro v rest hc
    change (Function.update s₁.worker w pc v).cursor = some rest at hc
    by_cases hv : v = w
    · subst v
      rw [Function.update_self] at hc
      exact hcursor rest hc
    · rw [Function.update_of_ne hv, hworker] at hc
      change rest <:+ s₁.clients
      rcases hclients with heq | hfree
      · rw [heq]
        exact h.cursor v rest hc
      · rw [(h.holder v).mpr ⟨rest, hc⟩] at hfree
        cases hfree
  · intro hm
    change s₁.main = _ ∨ s₁.main = _ at hm
    rw [hmain] at hm
    exact absurd (h.joined hm w) alive

/-- The holder of the mutex goes on through the list. -/
theorem Listed.scroll {s : State T} (h : Listed s) (s₁ : State T) {w : Fin T} {n : Node}
    {msg : List CString.Byte} {rest rest' : List Node} {sent : ℕ} (sent' : ℕ)
    (at_ : s.worker w = .broadcasting n msg rest sent) (suffix : rest' <:+ rest)
    (hclients : s₁.clients = s.clients) (hworker : s₁.worker = s.worker)
    (hmutex : s₁.clientsMutex = s.clientsMutex) (hmain : s₁.main = s.main) :
    Listed (s₁.setWorker w (.broadcasting n msg rest' sent')) := by
  have hsplit (n : Node) := (h.listed n).trans (listed_split s w n)
  have hw := h.free (w := w) (by simp [at_, WorkerPc.cursor])
  have hcur := h.cursor w rest (by simp [at_, WorkerPc.cursor])
  rw [at_] at hsplit
  refine h.stepped hmain hworker (by simp [at_]) (by rw [hclients]; exact hsplit)
    (by rw [hclients]; exact h.distinct) (Or.inl hclients)
    (fun _ => Or.inl (by simp [at_, WorkerPc.cursor])) (by simp [WorkerPc.cursor, hmutex, hw]) ?_
  intro l hl
  cases hl
  rw [hclients]
  exact suffix.trans hcur

theorem Listed.add {s : State T} (h : Listed s) (hx : Exclusive s) {w : Fin T} {n : Node}
    (at_ : s.worker w = .adding n) (free : s.clientsMutex = none) :
    Listed ({ s with clients := n :: s.clients }.setWorker w (.serving n)) := by
  refine h.stepped rfl rfl (by simp [at_]) (fun m => ?_) ?_ (Or.inr free)
    (fun _ => Or.inr free) (by simp [at_, WorkerPc.cursor]) (by simp [WorkerPc.cursor])
  · have hsplit := (h.listed m).trans (listed_split s w m)
    simp [hsplit, at_, WorkerPc.listed, eq_comm]
  · -- a listed node is held by another worker, so its descriptor is another one
    refine List.nodup_cons.mpr ⟨fun hmem => ?_, h.distinct⟩
    obtain ⟨m, hm, hfd⟩ := List.mem_map.mp hmem
    obtain ⟨v, hv⟩ := (h.listed m).mp hm
    have hw : held s (.worker w) = some n := by simp [held, at_, WorkerPc.node]
    have heq := hx.apart _ _ m n (held_worker hv) hw hfd
    cases heq
    rw [at_] at hv
    cases hv

theorem Listed.remove {s : State T} (h : Listed s) (hx : Exclusive s) {w : Fin T} {n : Node}
    (at_ : s.worker w = .removing n) (free : s.clientsMutex = none) :
    Listed ((s.removeClient n.fd).setWorker w (.closing n)) := by
  refine h.stepped rfl rfl (by simp [at_]) (fun m => ?_) ?_ (Or.inr free) (fun _ => Or.inr free)
    (by simp [at_, WorkerPc.cursor, State.removeClient]) (by simp [WorkerPc.cursor])
  · have hw : held s (.worker w) = some n := by simp [held, at_, WorkerPc.node]
    rw [removeClient_clients h, List.mem_filter, h.listed m, listed_split s w m, at_]
    simp only [WorkerPc.listed, Option.some.injEq, decide_not, Bool.not_eq_true',
      decide_eq_false_iff_not, reduceCtorEq, false_or]
    constructor
    · rintro ⟨rfl | hm, hne⟩
      · exact absurd rfl hne
      · exact hm
    · rintro ⟨v, hv, hm⟩
      exact ⟨Or.inr ⟨v, hv, hm⟩, hx.fd_ne (held_worker hm) hw (by simpa using hv)⟩
  · rw [removeClient_clients h]
    exact h.distinct.sublist (List.filter_sublist.map _)

theorem Listed.worker {s s' : State T} {w : Fin T} {e : WorkerEvent} (h : Listed s)
    (hx : Exclusive s) (st : WorkerStep s w e s') : Listed s' := by
  have hsplit (n : Node) := (h.listed n).trans (listed_split s w n)
  cases st with
  | move e pc node listed before after text alive =>
    refine h.stepped rfl rfl alive (fun n => ?_) h.distinct (Or.inl rfl)
      (fun hc => absurd after hc) (by simp [after, before]) (by simp [after])
    rw [hsplit, listed]
  | receive n chunk at_ =>
    rw [at_] at hsplit
    exact h.stepped rfl rfl (by simp [at_]) hsplit h.distinct (Or.inl rfl)
      (by simp [WorkerPc.cursor]) (by simp [at_, WorkerPc.cursor]) (by simp [WorkerPc.cursor])
  | send n msg c rest sent k at_ =>
    exact h.scroll _ _ at_ List.suffix_rfl rfl rfl rfl rfl
  | interrupted => exact h
  | giveUp r n msg c rest sent at_ =>
    exact h.scroll s _ at_ (List.suffix_cons c rest) rfl rfl rfl rfl
  | advance n msg c rest sent at_ =>
    exact h.scroll s _ at_ (List.suffix_cons c rest) rfl rfl rfl rfl
  | pop n jobs at_ queue =>
    rw [at_] at hsplit
    exact h.stepped rfl rfl (by simp [at_]) hsplit h.distinct (Or.inl rfl)
      (by simp [WorkerPc.cursor]) (by simp [at_, WorkerPc.cursor]) (by simp [WorkerPc.cursor])
  | add n at_ free => exact h.add hx at_ free
  | lock n msg at_ free =>
    rw [at_] at hsplit
    exact h.stepped rfl rfl (by simp [at_]) hsplit h.distinct (Or.inl rfl) (fun _ => Or.inr free)
      (by simp [WorkerPc.cursor]) (by simp [WorkerPc.cursor])
  | unlock n msg sent at_ =>
    rw [at_] at hsplit
    exact h.stepped rfl rfl (by simp [at_]) hsplit h.distinct (Or.inl rfl)
      (by simp [WorkerPc.cursor]) (by simp [at_, WorkerPc.cursor]) (by simp [WorkerPc.cursor])
  | remove n at_ free => exact h.remove hx at_ free
  | close n at_ =>
    rw [at_] at hsplit
    exact h.stepped rfl rfl (by simp [at_]) hsplit h.distinct (Or.inl rfl)
      (by simp [WorkerPc.cursor]) (by simp [at_, WorkerPc.cursor, State.close])
      (by simp [WorkerPc.cursor])

theorem Listed.main {s : State T} (h : Listed s) {e : MainEvent}
    (he : MainEnabled s s.main e) : Listed (mainNext s s.main e) := by
  have hkeep (s' : State T) (hclients : s'.clients = s.clients) (hworker : s'.worker = s.worker)
      (hmutex : s'.clientsMutex = s.clientsMutex)
      (hjoined : s'.main = .sweeping ∨ s'.main = .exited → ∀ w, s.worker w = .exited) :
      Listed s' := by
    constructor
    · rw [hclients, hworker]
      exact h.listed
    · rw [hclients]
      exact h.distinct
    · rw [hmutex, hworker]
      exact h.holder
    · rw [hclients, hworker]
      exact h.cursor
    · rw [hworker]
      exact hjoined
  generalize hm : s.main = pc at he
  unfold MainEnabled at he
  split at he
  · refine hkeep _ rfl rfl rfl ?_
    rw [mainNext]
    split <;> simp [State.setMain]
  · exact hkeep _ rfl rfl rfl (by simp [mainNext])
  · refine hkeep _ rfl rfl rfl ?_
    rw [mainNext]
    split <;> simp [State.setMain]
  · exact hkeep _ rfl rfl rfl (by simp [mainNext])
  · exact hkeep _ rfl rfl rfl (by simp [mainNext, State.setMain])
  · exact hkeep _ rfl rfl rfl (by simp [mainNext])
  · exact hkeep _ rfl rfl rfl fun _ => he
  · exact hkeep _ rfl rfl rfl fun _ => h.joined (Or.inl hm)
  · exact he.elim

/-! ## Every run -/

structure Invariant (s : State T) : Prop where
  exclusive : Exclusive s
  listed : Listed s

theorem initial_invariant (listenFd : Fd) : Invariant (initial listenFd : State T) := by
  refine ⟨⟨?_, ?_, ?_, ?_, ?_⟩, ⟨?_, ?_, ?_, ?_, ?_⟩⟩
  · intro p n hp
    cases p <;> simp [held, initial, accepting, WorkerPc.node] at hp
  · intro p q n m hp
    cases p <;> simp [held, initial, accepting, WorkerPc.node] at hp
  · intro fd c hc
    simp [initial, Function.update_apply] at hc
  · intro fd fd' c hc
    simp [initial, Function.update_apply] at hc
  · simp [initial]
  · simp [initial, WorkerPc.listed]
  · simp [initial, KeyedTable.Distinct]
  · simp [initial, WorkerPc.cursor]
  · simp [initial, WorkerPc.cursor]
  · simp [initial]

theorem step_invariant {s : State T} (h : Invariant s) {e : Event T} (he : Enabled s e) :
    Invariant (next s e) := by
  obtain ⟨hx, hl⟩ := h
  cases e with
  | signal =>
    exact ⟨⟨hx.named, hx.apart, hx.issued, hx.unique, hx.listener⟩,
      ⟨hl.listed, hl.distinct, hl.holder, hl.cursor, hl.joined⟩⟩
  | signalClose =>
    exact ⟨⟨hx.named, hx.apart, hx.issued, hx.unique, hx.listener⟩,
      ⟨hl.listed, hl.distinct, hl.holder, hl.cursor, hl.joined⟩⟩
  | main e => exact ⟨hx.main hl he, hl.main he⟩
  | worker w e => exact ⟨hx.worker (worker_step he), hl.worker hx (worker_step he)⟩

theorem run_invariant {listenFd : Fd} {es : List (Event T)}
    (h : (machine T listenFd).Valid es) : Invariant ((machine T listenFd).run es) :=
  Machine.invariant (I := Invariant) (initial_invariant listenFd)
    (fun _ _ hs he => step_invariant hs he) h

theorem Invariant.named {s : State T} (h : Invariant s) {n : Node} (hn : n ∈ s.clients) :
    s.sockets n.fd = some (.connection n.conn) := by
  obtain ⟨w, hw⟩ := (h.listed.listed n).mp hn
  exact h.exclusive.named _ n (held_worker hw)

theorem Invariant.recipient {s : State T} (h : Invariant s) {w : Fin T} {n c : Node}
    {msg : List CString.Byte} {rest : List Node} {sent : ℕ}
    (hw : s.worker w = .broadcasting n msg (c :: rest) sent) :
    (c :: rest) <:+ s.clients ∧ s.sockets c.fd = some (.connection c.conn) := by
  have hc := h.listed.cursor w (c :: rest) (by rw [hw]; rfl)
  exact ⟨hc, h.named (hc.subset List.mem_cons_self)⟩

/-- After every run the list has no descriptor twice, each is open and names the connection
its node was added for, and so does the one a broadcast is at. -/
theorem clients_safe (T : ℕ) (listenFd : Fd) (es : List (Event T))
    (h : (machine T listenFd).Valid es) : ClientsSafe ((machine T listenFd).run es) := by
  have hi := run_invariant h
  exact ⟨hi.listed.distinct, fun n hn => hi.named hn, hi.exclusive.unique,
    fun w n msg c rest sent hw => hi.recipient hw⟩

/-- Descriptor 4 is closed by the first worker and given to the next connection while the
second worker serves another one. -/
theorem clients_safe_reuse :
    let es : List (Event 2) := [.main .test, .main (.accept 4), .main .push, .worker 0 .test,
      .worker 0 .pop, .worker 0 .add, .worker 0 .test, .main .test, .main (.accept 5), .main .push,
      .worker 1 .test, .worker 1 .pop, .worker 1 .add, .worker 0 (.recv .hangup),
      .worker 0 .remove, .worker 0 .close, .main .test, .main (.accept 4), .main .push,
      .worker 0 .test, .worker 0 .pop, .worker 0 .add]
    ClientsSafe ((machine 2 3).run es) ∧ ((machine 2 3).run es).clients = [⟨4, 2⟩, ⟨5, 1⟩] :=
  ⟨clients_safe 2 3 _ (by decide), by decide⟩

end ThreadPoolClients
