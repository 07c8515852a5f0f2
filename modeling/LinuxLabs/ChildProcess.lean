import LinuxLabs.KeyedTable

/-! # Child processes and the statuses their parent waits for
A child has at most one status its parent has not consumed: a later one replaces it, and
only the consumption of its exit frees its number. The fields of `Child` say how the
status and the process agree, so no operation can leave a zombie without an exit status. -/
namespace ChildProcess

inductive Life where
  | running
  | stopped
  | zombie
  | reaped
  deriving DecidableEq

inductive Status where
  | stopped
  | continued
  | exited
  deriving DecidableEq

/-- What a child whose newest status is unconsumed is doing. -/
def Status.life : Status → Life
  | .stopped => .stopped
  | .continued => .running
  | .exited => .zombie

structure Child where
  pid : ℕ
  life : Life
  pending : Option Status
  last : Option Status
  reported : ∀ st, pending = some st → life = st.life
  unreported : life = .zombie → pending = some .exited
  released : life = .reaped ↔ last = some .exited
  deriving DecidableEq

namespace Child

def start (pid : ℕ) : Child where
  pid := pid
  life := .running
  pending := none
  last := none
  reported := by simp
  unreported := by simp
  released := by simp

def CanReport (c : Child) : Status → Prop
  | .stopped => c.life = .running
  | .continued => c.life = .stopped
  | .exited => c.life = .running ∨ c.life = .stopped

instance (c : Child) (st : Status) : Decidable (c.CanReport st) := by
  cases st <;> simp only [CanReport] <;> infer_instance

theorem CanReport.not_reaped {c : Child} {st : Status} (h : c.CanReport st) :
    c.life ≠ .reaped := by
  cases st with
  | stopped | continued =>
    rw [h]
    simp
  | exited => rcases h with h | h <;> simp [h]

/-- The child stops, continues or exits, if it can. -/
def report (c : Child) (st : Status) : Child :=
  if h : c.CanReport st then
    { pid := c.pid
      life := st.life
      pending := some st
      last := c.last
      reported := by simp
      unreported := by cases st <;> simp [Status.life]
      released := by
        have hlast : c.last ≠ some .exited := fun hl => h.not_reaped (c.released.mpr hl)
        cases st <;> simp [Status.life, hlast] }
  else c

/-- `waitpid` takes the pending status; taking an exit reaps the child. -/
def consume (c : Child) : Child :=
  match h : c.pending with
  | none => c
  | some st =>
    { pid := c.pid
      life := if st = .exited then .reaped else c.life
      pending := none
      last := some st
      reported := by simp
      unreported := by
        have := c.reported st h
        cases st <;> simp_all [Status.life]
      released := by
        have := c.reported st h
        cases st <;> simp_all [Status.life] }

/-- `SIGCONT`. -/
def resume (c : Child) : Child := c.report .continued

variable {c : Child} {st : Status}

theorem pending_of_reaped (h : c.life = .reaped) : c.pending = none := by
  cases hp : c.pending with
  | none => rfl
  | some st =>
    have := c.reported st hp
    rw [h] at this
    cases st <;> cases this

@[simp] theorem report_pid : (c.report st).pid = c.pid := by
  unfold report
  split <;> rfl

@[simp] theorem resume_pid : c.resume.pid = c.pid := report_pid

@[simp] theorem consume_pid : c.consume.pid = c.pid := by
  unfold consume
  split <;> rfl

theorem report_pending (h : c.CanReport st) : (c.report st).pending = some st := by
  rw [report, dif_pos h]

theorem report_reaped : (c.report st).life = .reaped ↔ c.life = .reaped := by
  unfold report
  split
  · next h => cases st <;> simp [Status.life, h.not_reaped]
  · exact Iff.rfl

/-- Either nothing happens or there is a status to be waited for. -/
theorem resume_cases (c : Child) : c.resume = c ∨ c.resume.pending = some .continued := by
  by_cases h : c.CanReport .continued
  · exact Or.inr (report_pending h)
  · exact Or.inl (dif_neg h)

theorem consume_last (h : c.pending = some st) : c.consume.last = some st := by
  unfold consume
  split
  · next hn => rw [hn] at h; cases h
  · next st' hs => rw [hs] at h; exact h

theorem consume_life (h : c.pending = some st) :
    c.consume.life = if st = .exited then .reaped else st.life := by
  have hlife := c.reported st h
  unfold consume
  split
  · next hn => rw [hn] at h; cases h
  · next st' hs =>
    rw [hs] at h
    cases h
    rw [← hlife]

theorem consume_reaped (h : c.pending = some st) : c.consume.life = .reaped ↔ st = .exited := by
  rw [c.consume.released, consume_last h, Option.some.injEq]

theorem consume_not_reaped (h : c.consume.life ≠ .reaped) : c.life ≠ .reaped := by
  intro hr
  apply h
  unfold consume
  split
  · exact hr
  · next st hs =>
    rw [pending_of_reaped hr] at hs
    cases hs

end Child

/-! ## The children of one parent -/

/-- The kernel gives a number to one child at a time. -/
def Distinct (cs : List Child) : Prop :=
  ∀ (i j : ℕ) (c d : Child), cs[i]? = some c → cs[j]? = some d → c.life ≠ .reaped →
    d.life ≠ .reaped → c.pid = d.pid → i = j

/-- Every child of the second list was one of the first, and one that is there was there. -/
def Later (cs ds : List Child) : Prop :=
  ∀ (i : ℕ) (d : Child), ds[i]? = some d →
    ∃ c : Child, cs[i]? = some c ∧ d.pid = c.pid ∧ (d.life ≠ .reaped → c.life ≠ .reaped)

theorem Distinct.later {cs ds : List Child} (h : Distinct cs) (hl : Later cs ds) : Distinct ds := by
  intro i j c d hc hd hcl hdl hpid
  obtain ⟨c', hc', hcp, hcr⟩ := hl i c hc
  obtain ⟨d', hd', hdp, hdr⟩ := hl j d hd
  exact h i j c' d' hc' hd' (hcr hcl) (hdr hdl) (by rw [← hcp, ← hdp, hpid])

theorem Distinct.fork {cs : List Child} (h : Distinct cs) {pid : ℕ}
    (fresh : ∀ c ∈ cs, c.life ≠ .reaped → c.pid ≠ pid) : Distinct (cs ++ [Child.start pid]) := by
  intro i j c d hc hd hcl hdl hpid
  rcases KeyedTable.append_some hc with hc | ⟨hi, rfl⟩ <;>
    rcases KeyedTable.append_some hd with hd | ⟨hj, rfl⟩
  · exact h i j c d hc hd hcl hdl hpid
  · exact absurd hpid (fresh c (List.mem_of_getElem? hc) hcl)
  · exact absurd hpid.symm (fresh d (List.mem_of_getElem? hd) hdl)
  · rw [hi, hj]

theorem later_modify (cs : List Child) (i : ℕ) {f : Child → Child}
    (hf : ∀ c, (f c).pid = c.pid ∧ ((f c).life ≠ .reaped → c.life ≠ .reaped)) :
    Later cs (cs.modify i f) := by
  intro j d hd
  obtain ⟨c, hc, rfl⟩ := KeyedTable.modify_some hd
  refine ⟨c, hc, ?_⟩
  split
  · exact hf c
  · exact ⟨rfl, id⟩

theorem later_map (cs : List Child) {f : Child → Child}
    (hf : ∀ c, (f c).pid = c.pid ∧ ((f c).life ≠ .reaped → c.life ≠ .reaped)) :
    Later cs (cs.map f) := by
  intro j d hd
  rw [List.getElem?_map] at hd
  obtain ⟨c, hc, rfl⟩ := Option.map_eq_some_iff.mp hd
  exact ⟨c, hc, hf c⟩

end ChildProcess
