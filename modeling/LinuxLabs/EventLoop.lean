import LinuxLabs.EdgeTriggered
import LinuxLabs.Execution
import Mathlib.Data.Finset.Basic

/-! # Event loops over edge-triggered sources
A program waits for a batch of reports and handles them in turn: for a new source one
accept, for any other one read of at most `cap` bytes. It never waits with input stranded
exactly if each read either empties its source or was overtaken by a new report. -/
namespace EventLoop

open Execution EdgeTriggered

universe u v w

variable {ι : Type u} {σ : Type v} {ε : Type w}

/-- What a step is to the sources. In a batch `none` stands for the listener; a step may accept
several sources at once, and find one at its end and close others with it. -/
inductive Action (ι : Type u) where
  | poll (ready : List (Option ι))
  | accept (new : List ι)
  | refuse
  | receive (i : ι) (n : ℕ) (leaves : Bool)
  | hangup (i : ι) (closed : List ι)

/-- How the batch goes on. -/
def Action.Serves (before after : List (Option ι)) : Action ι → Prop
  | .poll ready => before = [] ∧ after = ready
  | .accept _ | .refuse => before = none :: after
  | .receive i _ _ => before = some i :: after ∧ some i ∉ after
  | .hangup i _ => before = some i :: after

/-- Which sources are open then. -/
def Action.Opens (was is : ι → Prop) : Action ι → Prop
  | .poll _ | .refuse => ∀ i, is i ↔ was i
  | .accept new => ∀ i, is i ↔ was i ∨ i ∈ new
  | .receive i _ leaves => ∀ j, is j ↔ was j ∧ ¬ (leaves = true ∧ j = i)
  | .hangup i closed => i ∈ closed ∧ ∀ j, is j ↔ was j ∧ j ∉ closed

/-- A program with such a loop; `Inv` is what its steps may rely on. -/
structure Loop (ι : Type u) (σ : Type v) (ε : Type w) where
  machine : Machine σ ε
  cap : ℕ
  batch : σ → List (Option ι)
  opened : σ → ι → Prop
  action : σ → ε → Action ι
  Inv : σ → Prop
  start : Inv machine.initial
  keep : ∀ s e, Inv s → machine.Enabled s e → Inv (machine.next s e)
  serves : ∀ s e, Inv s → machine.Enabled s e →
    (action s e).Serves (batch s) (batch (machine.next s e))
  opens : ∀ s e, Inv s → machine.Enabled s e →
    (action s e).Opens (opened s) (opened (machine.next s e))

/-- The program next to the kernel. -/
structure Net (ι : Type u) (σ : Type v) where
  server : σ
  kernel : Readiness ι

/-- A step of the program, with the bytes that came early for a source it accepts, or an
arrival; one of no bytes is the end of a stream. -/
inductive Step (ι : Type u) (ε : Type w) where
  | code (e : ε) (early : ι → ℕ)
  | arrive (i : ι) (n : ℕ)

/-- The step brings bytes for `i`. -/
def Step.Brings (i : ι) : Step ι ε → Prop
  | .code _ early => 0 < early i
  | .arrive j _ => j = i

variable [DecidableEq ι]

def registerAll (r : Readiness ι) (early : ι → ℕ) (new : List ι) : Readiness ι :=
  new.foldl (fun r i => r.register i (early i)) r

def Action.observe (r : Readiness ι) (early : ι → ℕ) : Action ι → Readiness ι
  | .poll ready => r.deliver (ready.filterMap id)
  | .accept new => registerAll r early new
  | .receive i n _ => r.consume i n
  | .refuse | .hangup _ _ => r

/-- Only what is notified is reported, and a read returns what is there up to `cap`. -/
def Action.Possible (r : Readiness ι) (cap : ℕ) : Action ι → Prop
  | .poll ready => ∀ i ∈ ready.filterMap id, r.notified i = true
  | .receive i n _ => n = min cap (r.unread i)
  | .accept _ | .refuse | .hangup _ _ => True

namespace Loop

variable (L : Loop ι σ ε)

def net : Machine (Net ι σ) (Step ι ε) where
  initial := ⟨L.machine.initial, ⟨fun _ => 0, fun _ => false⟩⟩
  Enabled t
    | .code e _ => L.machine.Enabled t.server e ∧ (L.action t.server e).Possible t.kernel L.cap
    | .arrive _ _ => True
  next t
    | .code e early =>
      ⟨L.machine.next t.server e, (L.action t.server e).observe t.kernel early⟩
    | .arrive i n => { t with kernel := t.kernel.arrive i n }

/-- Nothing is stranded on an open source whose report is not in the batch. -/
def Unstranded (t : Net ι σ) : Prop :=
  t.kernel.Covered (L.opened t.server) fun i => some i ∈ L.batch t.server

/-- A read on a source that stays open empties it, or a further report is on its way. -/
def KeepsUp (t : Net ι σ) : Step ι ε → Prop
  | .code e _ =>
    match L.action t.server e with
    | .receive i _ leaves => L.opened t.server i → leaves = false →
      t.kernel.unread i ≤ L.cap ∨ t.kernel.notified i = true
    | _ => True
  | .arrive _ _ => True

/-- Waiting for the next reports, the program has nothing unread on an open source for which
none is on its way. -/
def Prompt (t : Net ι σ) : Prop :=
  L.batch t.server = [] → ∀ i, L.opened t.server i → t.kernel.Settled i

/-- Once `i` was reported and nothing more comes on it, all of its input is read when the
program waits the next time. -/
def Reads (es : List (Step ι ε)) : Prop :=
  ∀ fs gs i, es = fs ++ gs → (L.net.run fs).kernel.notified i = false →
    (∀ e ∈ gs, ¬ e.Brings i) → L.batch (L.net.run es).server = [] →
    L.opened (L.net.run es).server i → (L.net.run es).kernel.unread i = 0

/-- No state of a run has anything stranded exactly if all reads keep up; then the program
never waits with input stranded, and all input is read. -/
def NothingStranded : Prop := ∀ es, L.net.Valid es →
  (L.net.Along L.KeepsUp es ↔ L.net.Along (fun t e => L.Unstranded (L.net.next t e)) es) ∧
  (L.net.Along L.KeepsUp es → L.Prompt (L.net.run es) ∧ L.Reads es)

end Loop

/-! ## The reads decide -/

variable {r : Readiness ι} {i : ι}

theorem settled_registerAll {early : ι → ℕ} {new : List ι} (h : r.Settled i ∨ i ∈ new) :
    (registerAll r early new).Settled i := by
  induction new generalizing r with
  | nil => exact h.resolve_right (by simp)
  | cons j new ih =>
    refine ih ?_
    rcases h with h | h
    · exact Or.inl (h.register j _)
    · rcases List.mem_cons.mp h with rfl | h
      · exact Or.inl Readiness.settled_register
      · exact Or.inr h

theorem quiet_registerAll {early : ι → ℕ} {new : List ι} (hn : r.notified i = false)
    (h0 : early i = 0) : (registerAll r early new).notified i = false := by
  induction new generalizing r with
  | nil => exact hn
  | cons j new ih =>
    refine ih ?_
    by_cases hij : i = j
    · subst hij
      simp [Readiness.register, h0]
    · simpa [Readiness.register, Function.update_of_ne hij] using hn

namespace Loop

variable {L : Loop ι σ ε} {t : Net ι σ}

theorem run_inv {es : List (Step ι ε)} (h : L.net.Valid es) : L.Inv (L.net.run es).server := by
  refine Machine.invariant (M := L.net) (I := fun t => L.Inv t.server) L.start ?_ h
  rintro t (⟨e, early⟩ | ⟨i, n⟩) hi he
  · exact L.keep _ e hi he.1
  · exact hi

theorem initial_unstranded : L.Unstranded L.net.initial := fun _ _ _ => Or.inl rfl

theorem step_unstranded (hi : L.Inv t.server) (hu : L.Unstranded t) {e : Step ι ε}
    (he : L.net.Enabled t e) : L.Unstranded (L.net.next t e) ↔ L.KeepsUp t e := by
  cases e with
  | arrive i n => exact iff_of_true (hu.arrive i n) trivial
  | code e early =>
    obtain ⟨he, hp⟩ := he
    have hserves := L.serves _ e hi he
    have hopens := L.opens _ e hi he
    simp only [KeepsUp]
    cases ha : L.action t.server e with
    | poll ready =>
      rw [ha] at hserves hopens
      obtain ⟨hbefore, hafter⟩ := hserves
      refine iff_of_true (fun i hw hb => ?_) trivial
      have hd : (t.kernel.deliver (ready.filterMap id)).Covered (L.opened t.server)
          fun i => some i ∈ ready := by
        refine hu.deliver (fun i => ?_) fun i hm => ?_
        · rw [hbefore]
          exact List.not_mem_nil
        · simpa using hm
      simp only [net, ha, Action.observe]
      exact hd i ((hopens i).mp hw) (hafter ▸ hb)
    | accept new =>
      rw [ha] at hserves hopens
      refine iff_of_true (fun i hw hb => ?_) trivial
      simp only [net, ha, Action.observe]
      refine settled_registerAll ?_
      rcases (hopens i).mp hw with hw | hm
      · refine Or.inl (hu i hw fun hm => hb ?_)
        exact (List.mem_cons.mp (hserves ▸ hm)).resolve_left (by simp)
      · exact Or.inr hm
    | refuse =>
      rw [ha] at hserves hopens
      refine iff_of_true (fun i hw hb => ?_) trivial
      simp only [net, ha, Action.observe]
      refine hu i ((hopens i).mp hw) fun hm => hb ?_
      exact (List.mem_cons.mp (hserves ▸ hm)).resolve_left (by simp)
    | hangup i closed =>
      rw [ha] at hserves hopens
      refine iff_of_true (fun j hw hb => ?_) trivial
      obtain ⟨hi, hopens⟩ := hopens
      obtain ⟨hwas, hj⟩ := (hopens j).mp hw
      have hne : j ≠ i := fun h => hj (h ▸ hi)
      simp only [net, ha, Action.observe]
      refine hu j hwas fun hm => hb ?_
      exact (List.mem_cons.mp (hserves ▸ hm)).resolve_left (by simpa using hne)
    | receive i n leaves =>
      rw [ha] at hserves hopens hp
      obtain ⟨hbefore, hnot⟩ := hserves
      have hn : n = min L.cap (t.kernel.unread i) := hp
      constructor
      · intro h hwas hl
        have hs := h i ((hopens i).mpr ⟨hwas, by simp [hl]⟩) hnot
        simp only [net, ha, Action.observe] at hs
        refine ((Readiness.settled_consume (by omega)).mp hs).imp_left ?_
        omega
      · intro hkeep j hw hb
        obtain ⟨hwas, hstays⟩ := (hopens j).mp hw
        simp only [net, ha, Action.observe]
        by_cases hj : j = i
        · subst hj
          refine (Readiness.settled_consume (by omega)).mpr ((hkeep hwas ?_).imp_left (by omega))
          simpa using hstays
        · refine (hu j hwas fun hm => hb ?_).consume i n
          rw [hbefore] at hm
          exact (List.mem_cons.mp hm).resolve_left (by simpa using hj)

theorem along_keepsUp {es : List (Step ι ε)} (h : L.net.Valid es) :
    L.net.Along L.KeepsUp es ↔ L.net.Along (fun t e => L.Unstranded (L.net.next t e)) es :=
  Machine.along_iff_reached initial_unstranded
    (fun _ _ hv he hu => step_unstranded (run_inv hv) hu he) h

theorem run_unstranded {es : List (Step ι ε)} (h : L.net.Valid es)
    (hc : L.net.Along L.KeepsUp es) : L.Unstranded (L.net.run es) :=
  Machine.reached_run initial_unstranded ((along_keepsUp h).mp hc)

omit [DecidableEq ι] in
theorem Unstranded.prompt (h : L.Unstranded t) : L.Prompt t := by
  intro hb i hi
  refine h i hi ?_
  rw [hb]
  exact List.not_mem_nil

theorem quiet_next {e : Step ι ε} (hn : t.kernel.notified i = false) (he : ¬ e.Brings i) :
    (L.net.next t e).kernel.notified i = false := by
  cases e with
  | arrive j n =>
    have hne : i ≠ j := fun h => he h.symm
    simpa [net, Readiness.arrive, Function.update_of_ne hne] using hn
  | code e early =>
    have h0 : early i = 0 := Nat.eq_zero_of_not_pos he
    simp only [net]
    cases L.action t.server e with
    | poll ready => simp [Action.observe, Readiness.deliver, hn]
    | accept new => exact quiet_registerAll hn h0
    | refuse | receive | hangup => exact hn

theorem quiet_runFrom {es : List (Step ι ε)} (hn : t.kernel.notified i = false)
    (hq : ∀ e ∈ es, ¬ e.Brings i) : (L.net.runFrom t es).kernel.notified i = false := by
  induction es generalizing t with
  | nil => exact hn
  | cons e es ih =>
    exact ih (quiet_next hn (hq e List.mem_cons_self)) fun e he => hq e (List.mem_cons_of_mem _ he)

theorem nothing_stranded (L : Loop ι σ ε) : L.NothingStranded := by
  intro es h
  refine ⟨along_keepsUp h, fun hc => ?_⟩
  have hprompt := (run_unstranded h hc).prompt
  refine ⟨hprompt, ?_⟩
  rintro fs gs i rfl hn hq hb hi
  have hquiet : (L.net.run (fs ++ gs)).kernel.notified i = false := by
    rw [Machine.run_append]
    exact quiet_runFrom hn hq
  refine (hprompt hb i hi).resolve_right ?_
  rw [hquiet]
  exact Bool.false_ne_true

end Loop

/-! ## Servers that see to one report a step -/

/-- The report a step sees to. -/
def Action.report : Action ι → Option (Option ι)
  | .poll _ => none
  | .accept _ | .refuse => some none
  | .receive i _ _ | .hangup i _ => some (some i)

/-- A program given without its loop. -/
structure Service (ι : Type u) (σ : Type v) (ε : Type w) where
  machine : Machine σ ε
  cap : ℕ
  maxEvents : ℕ
  opened : σ → ι → Prop
  action : ε → Action ι
  Inv : σ → Prop
  start : Inv machine.initial
  keep : ∀ s e, Inv s → machine.Enabled s e → Inv (machine.next s e)
  opens : ∀ s e, Inv s → machine.Enabled s e →
    (action e).Opens (opened s) (opened (machine.next s e))

inductive Turn (ι : Type u) (ε : Type w) where
  | poll (ready : List (Option ι))
  | serve (e : ε)

namespace Service

variable (S : Service ι σ ε)

def turns : Machine (σ × List (Option ι)) (Turn ι ε) where
  initial := (S.machine.initial, [])
  Enabled t
    | .poll ready => t.2 = [] ∧ ready.Nodup ∧ ready.length ≤ S.maxEvents ∧
      ∀ i ∈ ready.filterMap id, S.opened t.1 i
    | .serve e => S.machine.Enabled t.1 e ∧ ∃ rest source,
      t.2 = source :: rest ∧ (S.action e).report = some source
  next t
    | .poll ready => (t.1, ready)
    | .serve e => (S.machine.next t.1 e, t.2.tail)

def loop : Loop ι (σ × List (Option ι)) (Turn ι ε) where
  machine := S.turns
  cap := S.cap
  batch := Prod.snd
  opened t := S.opened t.1
  action _
    | .poll ready => .poll ready
    | .serve e => S.action e
  Inv t := S.Inv t.1 ∧ t.2.Nodup
  start := ⟨S.start, List.nodup_nil⟩
  keep t e hi he := by
    cases e with
    | poll ready => exact ⟨hi.1, he.2.1⟩
    | serve e => exact ⟨S.keep t.1 e hi.1 he.1, hi.2.tail⟩
  serves t e hi he := by
    cases e with
    | poll ready => exact ⟨he.1, rfl⟩
    | serve e =>
      obtain ⟨-, rest, source, hb, hs⟩ := he
      have hnot : source ∉ rest := (List.nodup_cons.mp (hb ▸ hi.2)).1
      simp only [turns, hb, List.tail_cons]
      cases ha : S.action e <;> simp_all [Action.report, Action.Serves]
  opens t e hi he := by
    cases e with
    | poll ready => exact fun _ => Iff.rfl
    | serve e => exact S.opens t.1 e hi.1 he.1

end Service

/-! ## Sources open by number -/

def Unreserved (used reserved : Finset ι) (i : ι) : Prop := i ∈ used ∧ i ∉ reserved

instance (used reserved : Finset ι) (i : ι) : Decidable (Unreserved used reserved i) :=
  inferInstanceAs (Decidable (_ ∧ _))

section Opens

variable {used reserved : Finset ι}

theorem opens_accept (hr : i ∉ reserved) :
    (Action.accept [i]).Opens (Unreserved used reserved)
      (Unreserved (insert i used) reserved) := by
  intro j
  simp only [Unreserved, Finset.mem_insert, List.mem_singleton]
  by_cases hj : j = i
  · subst hj
    simp [hr]
  · simp [hj]

theorem opens_hangup : (Action.hangup i [i]).Opens (Unreserved used reserved)
    (Unreserved (used.erase i) reserved) := by
  refine ⟨List.mem_singleton_self i, fun j => ?_⟩
  simp only [Unreserved, Finset.mem_erase, List.mem_singleton]
  tauto

theorem opens_receive (n : ℕ) (leaves : Bool) :
    (Action.receive i n leaves).Opens (Unreserved used reserved)
      (Unreserved (if leaves then used.erase i else used) reserved) := by
  intro j
  cases leaves with
  | false => simp [Unreserved]
  | true =>
    simp only [Unreserved, if_true, Finset.mem_erase]
    tauto

end Opens

end EventLoop
