import LinuxLabs.Descriptors
import LinuxLabs.Execution

/-! # The pipes of a pipeline (labs 05 and 12)
`main` of lab 05 and `execute_pipeline` of lab 12 make the same calls on descriptors: the shell
creates all pipes, forks the stages and closes the pipes; a stage redirects and closes them
before it executes its command. The shell and the stages run in any order. -/
namespace PipelineWiring

open Execution Descriptors

universe u

inductive End where
  | read
  | write
  deriving DecidableEq

/-- A pipe of this pipeline, or whatever the shell had open before. -/
inductive File (φ : Type u) where
  | shell (f : φ)
  | pipe (i : ℕ) (e : End)
  deriving DecidableEq

/-- The array `pipes`. -/
abbrev Pipes := ℕ → End → ℕ

/-- The ends of the first `k` pipes, in the order of the closing loops. -/
def ends (k : ℕ) : List (ℕ × End) := (List.range k).flatMap fun i => [(i, .read), (i, .write)]

/-- The loops that close all pipes, in a stage and in the shell. -/
def closeAll (pipes : Pipes) (n : ℕ) : List Call :=
  (ends (n - 1)).map fun x => .close (pipes x.1 x.2)

/-- What stage `i` of `n` does between `fork` and `exec`. -/
def stageCalls (pipes : Pipes) (n i : ℕ) : List Call :=
  (if 0 < i then [.dup2 (pipes (i - 1) .read) 0] else []) ++
    (if i < n - 1 then [.dup2 (pipes i .write) 1] else []) ++ closeAll pipes n

/-- A stage has reached its command when `todo` is empty. -/
structure Child (φ : Type u) where
  todo : List Call
  table : Table (File φ)
  exited : Bool

/-- The shell waits when it has nothing left to close. -/
inductive Pc where
  | creating (i : ℕ)
  | forking (i : ℕ)
  | closing (todo : List Call)
  deriving DecidableEq

structure State (φ : Type u) where
  pc : Pc
  shell : Table (File φ)
  pipes : Pipes
  children : List (Child φ)

inductive Event where
  | pipe (r w : ℕ)
  | fork
  | close
  | call (i : ℕ)
  | exit (i : ℕ)
  deriving DecidableEq

variable {φ : Type u}

def base (own : Table φ) : Table (File φ) := fun fd => (own fd).map .shell

/-- The tests of the two `for` loops. -/
def forkingFrom (pipes : Pipes) (n i : ℕ) : Pc :=
  if i < n then .forking i else .closing (closeAll pipes n)

def creatingFrom (pipes : Pipes) (n i : ℕ) : Pc :=
  if i < n - 1 then .creating i else forkingFrom pipes n 0

def initial (own : Table φ) (n : ℕ) : State φ where
  pc := creatingFrom (fun _ _ => 0) n 0
  shell := base own
  pipes := fun _ _ => 0
  children := []

/-- `pipe` returns two free descriptors, none of them 0, 1 or 2; a stage may be killed at any
time. -/
def Enabled (s : State φ) : Event → Prop
  | .pipe r w => (match s.pc with
      | .creating _ => True
      | _ => False) ∧ r ≠ w ∧ 2 < r ∧ 2 < w ∧ s.shell r = none ∧ s.shell w = none
  | .fork => match s.pc with
    | .forking _ => True
    | _ => False
  | .close => match s.pc with
    | .closing todo => todo ≠ []
    | _ => False
  | .call i => ∃ c ∈ s.children[i]?, c.todo ≠ [] ∧ c.exited = false
  | .exit i => ∃ c ∈ s.children[i]?, c.exited = false

def Child.step (c : Child φ) : Child φ :=
  match c.todo with
  | [] => c
  | call :: todo => { c with todo := todo, table := call.run c.table }

def Child.exit (c : Child φ) : Child φ := { c with table := fun _ => none, exited := true }

def next (n : ℕ) (s : State φ) : Event → State φ
  | .pipe r w =>
    match s.pc with
    | .creating i =>
      let pipes := Function.update s.pipes i fun
        | .read => r
        | .write => w
      { s with
        pc := creatingFrom pipes n (i + 1)
        shell := Function.update (Function.update s.shell r (some (.pipe i .read))) w
          (some (.pipe i .write))
        pipes := pipes }
    | _ => s
  | .fork =>
    match s.pc with
    | .forking i =>
      { s with
        pc := forkingFrom s.pipes n (i + 1)
        children := s.children ++ [⟨stageCalls s.pipes n i, s.shell, false⟩] }
    | _ => s
  | .close =>
    match s.pc with
    | .closing (call :: todo) => { s with pc := .closing todo, shell := call.run s.shell }
    | _ => s
  | .call i => { s with children := s.children.modify i Child.step }
  | .exit i => { s with children := s.children.modify i Child.exit }

def machine (own : Table φ) (n : ℕ) : Machine (State φ) Event := ⟨initial own n, Enabled, next n⟩

instance (s : State φ) (e : Event) : Decidable (Enabled s e) := by
  cases e with
  | pipe r w =>
    simp only [Enabled]
    cases s.pc <;> infer_instance
  | fork | close =>
    simp only [Enabled]
    cases s.pc <;> infer_instance
  | call i | exit i => exact inferInstanceAs (Decidable (∃ c ∈ s.children[i]?, _))

instance (own : Table φ) (n : ℕ) (s : State φ) (e : Event) :
    Decidable ((machine own n).Enabled s e) := inferInstanceAs (Decidable (Enabled s e))

/-! ## What the descriptors refer to -/

/-- `t` is what the shell had open before, with the first `k` pipes. -/
structure Opened (own : Table φ) (pipes : Pipes) (k : ℕ) (t : Table (File φ)) : Prop where
  free : ∀ x ∈ ends k, own (pipes x.1 x.2) = none
  high : ∀ x ∈ ends k, 2 < pipes x.1 x.2
  piped : ∀ x ∈ ends k, t (pipes x.1 x.2) = some (.pipe x.1 x.2)
  rest : ∀ fd, (∀ x ∈ ends k, pipes x.1 x.2 ≠ fd) → t fd = base own fd

/-- What stage `i` has when it executes its command. -/
def stageTable (own : Table φ) (n i : ℕ) : Table (File φ) := fun fd =>
  if fd = 0 ∧ 0 < i then some (.pipe (i - 1) .read)
  else if fd = 1 ∧ i < n - 1 then some (.pipe i .write)
  else base own fd

variable {own : Table φ} {pipes : Pipes} {n k i j : ℕ} {t : Table (File φ)} {e : End}

theorem mem_ends {x : ℕ × End} : x ∈ ends k ↔ x.1 < k := by
  obtain ⟨i, e⟩ := x
  cases e <;> simp [ends]

theorem base_ne_pipe (own : Table φ) (fd i : ℕ) (e : End) : base own fd ≠ some (.pipe i e) := by
  simp only [base, ne_eq, Option.map_eq_some_iff, not_exists, not_and]
  intro f _ hf
  cases hf

theorem closeAll_eq (pipes : Pipes) (n : ℕ) :
    closeAll pipes n = ((ends (n - 1)).map fun x => pipes x.1 x.2).map Call.close := by
  simp [closeAll]

theorem Opened.closed (h : Opened own pipes (n - 1) t) (fd : ℕ) :
    runAll t (closeAll pipes n) fd = base own fd := by
  rw [closeAll_eq, runAll_close]
  split
  · next hfd =>
    obtain ⟨x, hx, rfl⟩ := List.mem_map.mp hfd
    simp [base, h.free x hx]
  · next hfd =>
    apply h.rest
    rintro x hx rfl
    exact hfd (List.mem_map.mpr ⟨x, hx, rfl⟩)

/-- The redirections are not undone by the closing, which is of higher descriptors only. -/
theorem Opened.closed_update (h : Opened own pipes (n - 1) t) (t' : Table (File φ)) {fd : ℕ}
    (hfd : fd ≤ 2) (f : Option (File φ)) :
    runAll (Function.update t' fd f) (closeAll pipes n) =
      Function.update (runAll t' (closeAll pipes n)) fd f := by
  have hlow : fd ∉ (ends (n - 1)).map fun x => pipes x.1 x.2 := by
    intro hm
    obtain ⟨x, hx, rfl⟩ := List.mem_map.mp hm
    have := h.high x hx
    omega
  funext fd'
  rw [closeAll_eq, runAll_close]
  by_cases heq : fd' = fd
  · subst heq
    simp [hlow]
  · rw [Function.update_of_ne heq, Function.update_of_ne heq, runAll_close]

theorem runAll_redirect {c : Prop} [Decidable c] {src dst : ℕ} {f : File φ}
    (hsrc : c → t src = some f) :
    runAll t (if c then [.dup2 src dst] else []) =
      if c then Function.update t dst (some f) else t := by
  split
  · next hc => exact dup2_run (hsrc hc) dst
  · rfl

/-- The calls of stage `i`, on the shell's table. -/
theorem Opened.stageCalls (h : Opened own pipes (n - 1) t) (hi : i < n) :
    runAll t (stageCalls pipes n i) = stageTable own n i := by
  have hread (hpos : 0 < i) : t (pipes (i - 1) .read) = some (.pipe (i - 1) .read) := by
    apply h.piped (i - 1, .read)
    apply mem_ends.mpr
    omega
  have hwrite (hlast : i < n - 1) : (if 0 < i then
      Function.update t 0 (some (.pipe (i - 1) .read)) else t) (pipes i .write) =
        some (.pipe i .write) := by
    have hhigh : 2 < pipes i .write := h.high (i, .write) (mem_ends.mpr hlast)
    have hne : pipes i .write ≠ 0 := by omega
    have hend := h.piped (i, .write) (mem_ends.mpr hlast)
    split
    · rwa [Function.update_of_ne hne]
    · exact hend
  rw [PipelineWiring.stageCalls, runAll_append, runAll_append, runAll_redirect hread,
    runAll_redirect hwrite]
  have hclose (fd : ℕ) (hfd : fd ≤ 2) (t' : Table (File φ)) (f : Option (File φ)) :=
    h.closed_update t' hfd f
  funext fd
  unfold stageTable
  by_cases hpos : 0 < i <;> by_cases hlast : i < n - 1 <;>
    simp only [hpos, hlast, if_true, if_false, and_true, and_false, Function.update_apply,
      hclose 0 (by omega), hclose 1 (by omega), h.closed]
  by_cases hfd : fd = 0
  · simp [hfd]
  · simp [hfd]

/-! ## Every step -/

/-- Where the shell is with its pipes. -/
def Stands (own : Table φ) (n : ℕ) (s : State φ) : Pc → Prop
  | .creating i => i < n - 1 ∧ Opened own s.pipes i s.shell ∧ s.children = []
  | .forking i => i < n ∧ Opened own s.pipes (n - 1) s.shell ∧ s.children.length = i
  | .closing todo => s.children.length = n ∧ ∃ t done, Opened own s.pipes (n - 1) t ∧
    closeAll s.pipes n = done ++ todo ∧ s.shell = runAll t done

/-- A stage has made the first of its calls on the table it inherited. -/
structure Follows (own : Table φ) (pipes : Pipes) (n i : ℕ) (c : Child φ) : Prop where
  exited : c.exited = true → c.table = fun _ => none
  alive : c.exited = false → ∃ t done, Opened own pipes (n - 1) t ∧
    stageCalls pipes n i = done ++ c.todo ∧ c.table = runAll t done

structure Invariant (own : Table φ) (n : ℕ) (s : State φ) : Prop where
  stands : Stands own n s s.pc
  follows : ∀ i c, s.children[i]? = some c → Follows own s.pipes n i c

variable {s : State φ}

theorem Opened.start (own : Table φ) (pipes : Pipes) : Opened own pipes 0 (base own) := by
  constructor
  · simp [ends]
  · simp [ends]
  · simp [ends]
  · intro fd _
    rfl

theorem Opened.create (h : Opened own pipes k t) {r w : ℕ} (hne : r ≠ w) (hr : 2 < r)
    (hw : 2 < w) (hrfree : t r = none) (hwfree : t w = none) :
    Opened own (Function.update pipes k fun | .read => r | .write => w) (k + 1)
      (Function.update (Function.update t r (some (.pipe k .read))) w (some (.pipe k .write))) := by
  have hnew {fd : ℕ} (hfd : t fd = none) : (∀ x ∈ ends k, pipes x.1 x.2 ≠ fd) ∧ own fd = none := by
    have hout : ∀ x ∈ ends k, pipes x.1 x.2 ≠ fd := by
      rintro x hx rfl
      rw [h.piped x hx] at hfd
      cases hfd
    have hbase := h.rest fd hout
    rw [hfd] at hbase
    exact ⟨hout, Option.map_eq_none_iff.mp hbase.symm⟩
  have hold {i : ℕ} (hi : i < k) (e : End) :
      Function.update pipes k (fun | .read => r | .write => w) i e = pipes i e := by
    rw [Function.update_of_ne (by omega)]
  constructor
  · rintro ⟨i, e⟩ hx
    rcases Nat.lt_succ_iff_lt_or_eq.mp (mem_ends.mp hx) with hi | rfl
    · rw [hold hi]
      exact h.free (i, e) (mem_ends.mpr hi)
    · cases e
      · simpa using (hnew hrfree).2
      · simpa using (hnew hwfree).2
  · rintro ⟨i, e⟩ hx
    rcases Nat.lt_succ_iff_lt_or_eq.mp (mem_ends.mp hx) with hi | rfl
    · rw [hold hi]
      exact h.high (i, e) (mem_ends.mpr hi)
    · cases e <;> simpa
  · rintro ⟨i, e⟩ hx
    rcases Nat.lt_succ_iff_lt_or_eq.mp (mem_ends.mp hx) with hi | rfl
    · have hmem : (i, e) ∈ ends k := mem_ends.mpr hi
      rw [hold hi, Function.update_of_ne ((hnew hwfree).1 _ hmem),
        Function.update_of_ne ((hnew hrfree).1 _ hmem)]
      exact h.piped (i, e) hmem
    · cases e <;> simp [hne]
  · intro fd hfd
    have hfdw : fd ≠ w := fun heq => hfd (k, .write) (mem_ends.mpr (by simp)) (by simp [heq])
    have hfdr : fd ≠ r := fun heq => hfd (k, .read) (mem_ends.mpr (by simp)) (by simp [heq])
    rw [Function.update_of_ne hfdw, Function.update_of_ne hfdr]
    apply h.rest
    intro x hx
    have hi := mem_ends.mp hx
    rw [← hold hi]
    exact hfd x (mem_ends.mpr (Nat.lt_succ_of_lt hi))

theorem stands_forkingFrom (h : Opened own s.pipes (n - 1) s.shell) (hi : i ≤ n)
    (hlen : s.children.length = i) : Stands own n s (forkingFrom s.pipes n i) := by
  unfold forkingFrom
  split
  · next hlt => exact ⟨hlt, h, hlen⟩
  · exact ⟨by omega, s.shell, [], h, rfl, rfl⟩

theorem stands_creatingFrom (h : Opened own s.pipes i s.shell) (hi : i ≤ n - 1)
    (hnone : s.children = []) : Stands own n s (creatingFrom s.pipes n i) := by
  unfold creatingFrom
  split
  · next hlt => exact ⟨hlt, h, hnone⟩
  · obtain rfl : i = n - 1 := by omega
    exact stands_forkingFrom h (Nat.zero_le n) (by simp [hnone])

theorem Follows.step {c : Child φ} (h : Follows own pipes n i c) (halive : c.exited = false) :
    Follows own pipes n i c.step := by
  unfold Child.step
  cases htodo : c.todo with
  | nil => exact h
  | cons call todo =>
    obtain ⟨t, done, ho, hcalls, htable⟩ := h.alive halive
    constructor
    · intro hexited
      rw [halive] at hexited
      cases hexited
    · intro _
      exact ⟨t, done ++ [call], ho, by simp [hcalls, htodo], by rw [runAll_concat, htable]⟩

theorem Follows.exit (own : Table φ) (pipes : Pipes) (n i : ℕ) (c : Child φ) :
    Follows own pipes n i c.exit := by
  constructor
  · intro _
    rfl
  · intro halive
    cases halive

/-- A step of one stage. -/
theorem Invariant.child (h : Invariant own n s) (i : ℕ) (f : Child φ → Child φ)
    (hf : ∀ c, s.children[i]? = some c → Follows own s.pipes n i (f c)) :
    Invariant own n { s with children := s.children.modify i f } := by
  constructor
  · have hstands := h.stands
    change Stands own n _ s.pc
    cases hpc : s.pc with
    | creating k =>
      rw [hpc] at hstands
      obtain ⟨hk, ho, hnone⟩ := hstands
      exact ⟨hk, ho, by simp [hnone]⟩
    | forking k =>
      rw [hpc] at hstands
      obtain ⟨hk, ho, hlen⟩ := hstands
      exact ⟨hk, ho, by simp [hlen]⟩
    | closing todo =>
      rw [hpc] at hstands
      obtain ⟨hlen, hrest⟩ := hstands
      exact ⟨by simp [hlen], hrest⟩
  · intro j c hc
    change (s.children.modify i f)[j]? = some c at hc
    rw [List.getElem?_modify] at hc
    obtain ⟨c', hc', rfl⟩ := Option.map_eq_some_iff.mp hc
    by_cases hij : i = j
    · subst hij
      rw [if_pos rfl]
      exact hf c' hc'
    · rw [if_neg hij]
      exact h.follows j c' hc'

theorem initial_invariant (own : Table φ) (n : ℕ) : Invariant own n (initial own n) := by
  constructor
  · exact stands_creatingFrom (s := initial own n) (Opened.start own _) (Nat.zero_le _) rfl
  · intro i c hc
    simp [initial] at hc

theorem next_invariant (h : Invariant own n s) {e : Event} (he : Enabled s e) :
    Invariant own n (next n s e) := by
  have hstands := h.stands
  cases e with
  | pipe r w =>
    obtain ⟨hcreating, hne, hr, hw, hrfree, hwfree⟩ := he
    simp only [next]
    cases hpc : s.pc with
    | creating i =>
      rw [hpc] at hstands
      obtain ⟨hi, ho, hnone⟩ := hstands
      constructor
      · apply stands_creatingFrom
        · exact ho.create hne hr hw hrfree hwfree
        · omega
        · exact hnone
      · intro j c hc
        simp [hnone] at hc
    | forking | closing =>
      rw [hpc] at hcreating
      exact hcreating.elim
  | fork =>
    simp only [next]
    cases hpc : s.pc with
    | forking i =>
      rw [hpc] at hstands
      obtain ⟨hi, ho, hlen⟩ := hstands
      constructor
      · apply stands_forkingFrom
        · exact ho
        · omega
        · simp [hlen]
      · intro j c hc
        change (s.children ++ [_])[j]? = some c at hc
        by_cases hj : j < s.children.length
        · rw [List.getElem?_append_left hj] at hc
          exact h.follows j c hc
        · rw [List.getElem?_append_right (by omega), List.getElem?_singleton] at hc
          split at hc
          · next hlast =>
            cases hc
            obtain rfl : j = i := by omega
            exact ⟨fun hexited => (nomatch hexited), fun _ => ⟨s.shell, [], ho, rfl, rfl⟩⟩
          · cases hc
    | creating | closing => simp [Enabled, hpc] at he
  | close =>
    simp only [next]
    cases hpc : s.pc with
    | closing todo =>
      rw [hpc] at hstands
      obtain ⟨hlen, t, done, ho, hcalls, htable⟩ := hstands
      cases todo with
      | nil => simp [Enabled, hpc] at he
      | cons call todo =>
        constructor
        · exact ⟨hlen, t, done ++ [call], ho, by simp [hcalls], by rw [runAll_concat, ← htable]⟩
        · exact h.follows
    | creating | forking => simp [Enabled, hpc] at he
  | call i =>
    obtain ⟨c, hc, -, halive⟩ := he
    apply h.child
    intro c' hc'
    obtain rfl : c = c' := Option.some.inj (hc.symm.trans hc')
    exact (h.follows i c hc).step halive
  | exit i =>
    apply h.child
    intro c _
    exact Follows.exit own s.pipes n i c

theorem run_invariant {es : List Event} (h : (machine own n).Valid es) :
    Invariant own n ((machine own n).run es) :=
  Machine.invariant (M := machine own n) (initial_invariant own n)
    (fun _ _ hs he => next_invariant hs he) h

/-! ## Every run -/

/-- A descriptor of the shell (`none`) or of a stage refers to an end of a pipe. -/
def Refers (s : State φ) (p : Option ℕ) (fd i : ℕ) (e : End) : Prop :=
  match p with
  | none => s.shell fd = some (.pipe i e)
  | some k => ∃ c ∈ s.children[k]?, c.table fd = some (.pipe i e)

/-- The stage has reached `exec` and not exited. -/
def Executing (s : State φ) (i : ℕ) (c : Child φ) : Prop :=
  s.children[i]? = some c ∧ c.todo = [] ∧ c.exited = false

/-- All stages have been forked, the shell waits, and no stage is still before its `exec`. -/
def Settled (s : State φ) : Prop :=
  s.pc = .closing [] ∧ ∀ c ∈ s.children, c.exited = false → c.todo = []

instance (s : State φ) : Decidable (Settled s) := inferInstanceAs (Decidable (_ ∧ _))

def Alive (s : State φ) (i : ℕ) : Prop := ∃ c ∈ s.children[i]?, c.exited = false

/-- Nothing can be written to the pipe any more: once it is empty, a read returns 0. -/
def AtEnd (s : State φ) (i : ℕ) : Prop := ∀ p fd, ¬ Refers s p fd i .write

theorem Invariant.executing (h : Invariant own n s) {c : Child φ} (hc : Executing s i c) :
    i < n ∧ c.table = stageTable own n i := by
  obtain ⟨hget, htodo, halive⟩ := hc
  obtain ⟨t, done, ho, hcalls, htable⟩ := (h.follows i c hget).alive halive
  have hlen : i < s.children.length := (List.getElem?_eq_some_iff.mp hget).1
  have hi : i < n := by
    have hstands := h.stands
    cases hpc : s.pc with
    | creating k =>
      rw [hpc] at hstands
      simp [hstands.2.2] at hlen
    | forking k =>
      rw [hpc] at hstands
      have := hstands.2.2
      have := hstands.1
      omega
    | closing todo =>
      rw [hpc] at hstands
      have := hstands.1
      omega
  rw [htodo, List.append_nil] at hcalls
  rw [htable, ← hcalls, ho.stageCalls hi]
  exact ⟨hi, rfl⟩

theorem Invariant.waiting (h : Invariant own n s) (hpc : s.pc = .closing []) :
    s.children.length = n ∧ s.shell = base own := by
  have hstands := h.stands
  rw [hpc] at hstands
  obtain ⟨hlen, t, done, ho, hcalls, htable⟩ := hstands
  rw [List.append_nil] at hcalls
  refine ⟨hlen, ?_⟩
  funext fd
  rw [htable, ← hcalls, ho.closed]

theorem stageTable_pipe {fd : ℕ} : stageTable own n i fd = some (.pipe j e) ↔
    e = .read ∧ fd = 0 ∧ i = j + 1 ∨ e = .write ∧ fd = 1 ∧ i = j ∧ j < n - 1 := by
  unfold stageTable
  split
  · next hread =>
    constructor
    · intro heq
      cases heq
      exact Or.inl ⟨rfl, hread.1, by omega⟩
    · rintro (⟨rfl, -, rfl⟩ | ⟨-, hfd, -⟩)
      · rfl
      · omega
  · next hread =>
    split
    · next hwrite =>
      constructor
      · intro heq
        cases heq
        exact Or.inr ⟨rfl, hwrite.1, rfl, hwrite.2⟩
      · rintro (⟨-, hfd, -⟩ | ⟨rfl, -, rfl, -⟩)
        · omega
        · rfl
    · next hwrite =>
      constructor
      · intro heq
        exact absurd heq (base_ne_pipe own fd j e)
      · rintro (⟨-, hfd, rfl⟩ | ⟨-, hfd, rfl, hlast⟩)
        · exact absurd ⟨hfd, Nat.succ_pos j⟩ hread
        · exact absurd ⟨hfd, hlast⟩ hwrite

/-- Once everything has settled, only stages that execute have pipes. -/
theorem Invariant.refers (h : Invariant own n s) (hs : Settled s) {p : Option ℕ} {fd : ℕ} :
    Refers s p fd j e ↔ ∃ i, p = some i ∧ Alive s i ∧ stageTable own n i fd = some (.pipe j e) := by
  cases p with
  | none =>
    simp only [Refers, (h.waiting hs.1).2]
    constructor
    · intro heq
      exact absurd heq (base_ne_pipe own fd j e)
    · rintro ⟨i, hi, -⟩
      cases hi
  | some k =>
    constructor
    · rintro ⟨c, hc, heq⟩
      have halive : c.exited = false := by
        by_contra hexited
        rw [(h.follows k c hc).exited (by simpa using hexited)] at heq
        cases heq
      have hexec : Executing s k c := ⟨hc, hs.2 c (List.mem_of_getElem? hc) halive, halive⟩
      rw [(h.executing hexec).2] at heq
      exact ⟨k, rfl, ⟨c, hc, halive⟩, heq⟩
    · rintro ⟨i, hi, ⟨c, hc, halive⟩, heq⟩
      obtain rfl : k = i := Option.some.inj hi
      have hexec : Executing s k c := ⟨hc, hs.2 c (List.mem_of_getElem? hc) halive, halive⟩
      refine ⟨c, hc, ?_⟩
      rw [(h.executing hexec).2]
      exact heq

/-- In every order of the shell's and the stages' steps: an executing stage has its own two pipe
ends and no other, the waiting shell has none, and once all stages execute or have exited, each
pipe is written by the stage before it and read by the one after it alone. -/
theorem pipes_wired (own : Table φ) (n : ℕ) (es : List Event) (h : (machine own n).Valid es) :
    let s := (machine own n).run es
    (∀ i c, Executing s i c →
      c.table 0 = (if i = 0 then base own 0 else some (.pipe (i - 1) .read)) ∧
      c.table 1 = (if i = n - 1 then base own 1 else some (.pipe i .write)) ∧
      ∀ fd, fd ≠ 0 → fd ≠ 1 → ∀ j e, c.table fd ≠ some (.pipe j e)) ∧
    (s.pc = .closing [] → ∀ fd j e, ¬ Refers s none fd j e) ∧
    (Settled s → ∀ j, j + 1 < n →
      (∀ p fd, Refers s p fd j .write ↔ p = some j ∧ fd = 1 ∧ Alive s j) ∧
      (∀ p fd, Refers s p fd j .read ↔ p = some (j + 1) ∧ fd = 0 ∧ Alive s (j + 1)) ∧
      (¬ Alive s j → AtEnd s j)) := by
  intro s
  have hinv : Invariant own n s := run_invariant h
  refine ⟨?_, ?_, ?_⟩
  · intro i c hc
    obtain ⟨hi, htable⟩ := hinv.executing hc
    rw [htable]
    refine ⟨?_, ?_, ?_⟩
    · by_cases hzero : i = 0
      · simp [stageTable, hzero]
      · simp [stageTable, hzero, Nat.pos_of_ne_zero hzero]
    · by_cases hlast : i = n - 1
      · simp [stageTable, hlast]
      · have hlt : i < n - 1 := by omega
        simp [stageTable, hlast, hlt]
    · intro fd hin hout j e heq
      rcases stageTable_pipe.mp heq with ⟨-, hfd, -⟩ | ⟨-, hfd, -⟩
      · exact hin hfd
      · exact hout hfd
  · intro hpc fd j e heq
    rw [Refers, (hinv.waiting hpc).2] at heq
    exact base_ne_pipe own fd j e heq
  · intro hs j hj
    have hwrite (p : Option ℕ) (fd : ℕ) :
        Refers s p fd j .write ↔ p = some j ∧ fd = 1 ∧ Alive s j := by
      rw [hinv.refers hs]
      constructor
      · rintro ⟨i, rfl, halive, heq⟩
        rcases stageTable_pipe.mp heq with ⟨he, -⟩ | ⟨-, rfl, rfl, -⟩
        · cases he
        · exact ⟨rfl, rfl, halive⟩
      · rintro ⟨rfl, rfl, halive⟩
        exact ⟨j, rfl, halive, stageTable_pipe.mpr (Or.inr ⟨rfl, rfl, rfl, by omega⟩)⟩
    refine ⟨hwrite, ?_, ?_⟩
    · intro p fd
      rw [hinv.refers hs]
      constructor
      · rintro ⟨i, rfl, halive, heq⟩
        rcases stageTable_pipe.mp heq with ⟨-, rfl, rfl⟩ | ⟨he, -⟩
        · exact ⟨rfl, rfl, halive⟩
        · cases he
      · rintro ⟨rfl, rfl, halive⟩
        exact ⟨j + 1, rfl, halive, stageTable_pipe.mpr (Or.inl ⟨rfl, rfl, rfl⟩)⟩
    · intro hexited p fd hrefers
      exact hexited ((hwrite p fd).mp hrefers).2.2

/-- Two stages; the first runs to its end before the second is forked. -/
theorem two_stages_wired :
    let es : List Event := [.pipe 3 4, .fork, .call 0, .call 0, .call 0, .exit 0, .fork, .close,
      .call 1, .close, .call 1, .call 1]
    let s := (machine (fun fd => if fd < 3 then some () else none) 2).run es
    s.children[1]?.map (fun c => c.table 0) = some (some (.pipe 0 .read)) ∧ AtEnd s 0 := by
  intro es s
  have hv : (machine (fun fd => if fd < 3 then some () else none) 2).Valid es := by decide +kernel
  have hsettled : Settled s := by decide +kernel
  refine ⟨by decide +kernel, ?_⟩
  apply ((pipes_wired _ 2 es hv).2.2 hsettled 0 (by omega)).2.2
  rintro ⟨c, hc, halive⟩
  obtain rfl : (⟨[], fun _ => none, true⟩ : Child Unit) = c := Option.some.inj hc
  cases halive

end PipelineWiring
