import Mathlib.Data.List.Basic
import Mathlib.Data.List.Infix
import Mathlib.Data.List.Nodup
import Mathlib.Data.List.Pairwise
import Mathlib.Tactic.Common

/-! # Forwarding chunks over writes that may fall short
A relay reads a chunk from one endpoint and passes it to one write on another, which
accepts any number of its items. Items are told apart by where they were read, so what
an endpoint has accepted is a prefix of what was read for it exactly when nothing is
accepted after a write that fell short. -/
namespace Forwarding

universe u v

structure Transfer (ε : Type u) (α : Type v) where
  source : ε
  dest : ε
  chunk : List α
  accepted : ℕ
  deriving DecidableEq

variable {ε : Type u} {α : Type v}

namespace Transfer

def taken (t : Transfer ε α) : List α := t.chunk.take t.accepted

def moved (t : Transfer ε α) : ℕ := min t.accepted t.chunk.length

def Short (t : Transfer ε α) : Prop := t.moved < t.chunk.length

instance (t : Transfer ε α) : Decidable t.Short := inferInstanceAs (Decidable (_ < _))

variable {t : Transfer ε α}

theorem taken_length : t.taken.length = t.moved := List.length_take

theorem taken_of_not_short (h : ¬ t.Short) : t.taken = t.chunk := by
  refine List.take_of_length_le ?_
  simp only [Short, moved] at h
  omega

end Transfer

/-! ## One stream of chunks -/

def Steady (ts : List (Transfer ε α)) : Prop := ts.Pairwise fun t u => t.Short → u.moved = 0

variable {ts : List (Transfer ε α)}

theorem taken_eq_nil : ts.flatMap Transfer.taken = [] ↔ ∀ t ∈ ts, t.moved = 0 := by
  rw [List.flatMap_eq_nil_iff]
  refine forall₂_congr fun t _ => ?_
  rw [← t.taken_length, List.length_eq_zero_iff]

theorem taken_prefix (h : Steady ts) : ts.flatMap Transfer.taken <+: ts.flatMap Transfer.chunk := by
  induction ts with
  | nil => exact List.prefix_rfl
  | cons t ts ih =>
    obtain ⟨ht, hts⟩ := List.pairwise_cons.mp h
    rw [List.flatMap_cons, List.flatMap_cons]
    by_cases hs : t.Short
    · rw [taken_eq_nil.mpr fun u hu => ht u hu hs, List.append_nil]
      exact (List.take_prefix _ _).trans (List.prefix_append _ _)
    · rw [Transfer.taken_of_not_short hs, List.prefix_append_right_inj]
      exact ih hts

/-- While no item is there twice, a prefix leaves no gap. -/
theorem steady_of_nodup (hn : (ts.flatMap Transfer.chunk).Nodup)
    (h : ts.flatMap Transfer.taken <+: ts.flatMap Transfer.chunk) : Steady ts := by
  induction ts with
  | nil => exact List.Pairwise.nil
  | cons t ts ih =>
    rw [List.flatMap_cons, List.nodup_append] at hn
    obtain ⟨_, hrest, hdisj⟩ := hn
    rw [List.flatMap_cons, List.flatMap_cons] at h
    by_cases hs : t.Short
    · have hnil : ts.flatMap Transfer.taken = [] := by
        by_contra hne
        obtain ⟨x, xs, hx⟩ := List.exists_cons_of_ne_nil hne
        -- the first item taken later would sit where the rest of `t` belongs
        have hlt : t.taken.length < t.chunk.length := t.taken_length ▸ hs
        have hget := h.getElem (i := t.taken.length) (by simp [hx])
        rw [List.getElem_append_right le_rfl, List.getElem_append_left hlt] at hget
        have hxc : x ∈ t.chunk := by
          have hpos : 0 < (ts.flatMap Transfer.taken).length := by simp [hx]
          have hx0 : (ts.flatMap Transfer.taken)[0] = x := by simp [hx]
          simp only [Nat.sub_self, hx0] at hget
          exact hget ▸ List.getElem_mem hlt
        have hxr : x ∈ ts.flatMap Transfer.chunk := by
          obtain ⟨u, hu, hxu⟩ := List.mem_flatMap.mp (hx ▸ List.mem_cons_self : x ∈ ts.flatMap _)
          exact List.mem_flatMap.mpr ⟨u, hu, List.mem_of_mem_take hxu⟩
        exact hdisj x hxc x hxr rfl
      have hzero := taken_eq_nil.mp hnil
      refine List.pairwise_cons.mpr ⟨fun u hu _ => hzero u hu, ?_⟩
      exact List.pairwise_of_forall_mem_list fun _ _ u hu _ => hzero u hu
    · rw [Transfer.taken_of_not_short hs, List.prefix_append_right_inj] at h
      exact List.pairwise_cons.mpr ⟨fun u _ hs' => absurd hs' hs, ih hrest h⟩

/-! ## The log of a relay -/

section Log

variable [DecidableEq ε]

def readFrom (log : List (Transfer ε α)) (a : ε) : List α :=
  (log.filter fun t => t.source = a).flatMap Transfer.chunk

def acceptedBy (log : List (Transfer ε α)) (b : ε) : List α :=
  (log.filter fun t => t.dest = b).flatMap Transfer.taken

/-- Each item with the number of its chunk and its place there. -/
def mark (log : List (Transfer ε α)) : List (Transfer ε ((ℕ × ℕ) × α)) :=
  log.mapIdx fun i t => ⟨t.source, t.dest, t.chunk.mapIdx fun j x => ((i, j), x), t.accepted⟩

/-- On the way from `a` to `b` no item is lost, repeated or overtaken before one that arrives. -/
def Intact (log : List (Transfer ε α)) (a b : ε) : Prop :=
  acceptedBy (mark log) b <+: readFrom (mark log) a

/-- After a write of something read from `a` fell short, the later ones accept nothing. -/
def InOrder (log : List (Transfer ε α)) (a : ε) : Prop :=
  log.Pairwise fun t u => t.source = a → u.source = a → t.Short → u.moved = 0

variable {log : List (Transfer ε α)} {a b : ε}

omit [DecidableEq ε] in
theorem inOrder_concat (t : Transfer ε α) : InOrder (log ++ [t]) a ↔
    InOrder log a ∧ (t.source = a → ∀ u ∈ log, u.source = a → u.Short → t.moved = 0) := by
  rw [InOrder, List.pairwise_append]
  simp only [List.pairwise_singleton, List.mem_singleton, forall_eq, true_and]
  exact and_congr_right fun _ =>
    ⟨fun h ht u hu hs => h u hu hs ht, fun h u hu hs ht => h ht u hu hs⟩

theorem inOrder_filter : InOrder log a ↔ Steady (log.filter fun t => t.source = a) := by
  rw [Steady, List.pairwise_filter]
  simp only [decide_eq_true_eq]
  rfl

omit [DecidableEq ε] in
theorem mem_mark {t : Transfer ε ((ℕ × ℕ) × α)} (h : t ∈ mark log) :
    ∃ u ∈ log, t.source = u.source ∧ t.dest = u.dest := by
  obtain ⟨i, hi, rfl⟩ := List.mem_mapIdx.mp h
  exact ⟨log[i], List.getElem_mem hi, rfl, rfl⟩

omit [DecidableEq ε] in
/-- Marking leaves out nothing the condition looks at. -/
theorem inOrder_mark : InOrder (mark log) a ↔ InOrder log a := by
  simp [InOrder, mark, List.pairwise_iff_getElem, Transfer.Short, Transfer.moved]

omit [DecidableEq ε] in
theorem mark_nodup (log : List (Transfer ε α)) : ((mark log).flatMap Transfer.chunk).Nodup := by
  rw [List.nodup_flatMap]
  constructor
  · intro t ht
    obtain ⟨i, hi, rfl⟩ := List.mem_mapIdx.mp ht
    rw [List.Nodup, List.pairwise_iff_getElem]
    intro j k hj hk hjk heq
    simp only [List.getElem_mapIdx, Prod.mk.injEq, true_and] at heq
    omega
  · rw [List.pairwise_iff_getElem]
    intro i j hi hj hij x hx hy
    simp only [mark, List.getElem_mapIdx, List.mem_mapIdx] at hx hy
    obtain ⟨_, _, rfl⟩ := hx
    obtain ⟨_, _, heq⟩ := hy
    simp only [Prod.mk.injEq] at heq
    omega

/-- A direction that shares neither end with another is intact exactly if, once a write fell
short, nothing more is accepted. -/
theorem intact_iff (h : ∀ t ∈ log, t.source = a ↔ t.dest = b) : Intact log a b ↔ InOrder log a := by
  have hm : ∀ t ∈ mark log, decide (t.dest = b) = decide (t.source = a) := by
    intro t ht
    obtain ⟨u, hu, hs, hd⟩ := mem_mark ht
    simp only [hs, hd, h u hu]
  have hn : (readFrom (mark log) a).Nodup := by
    obtain ⟨hchunk, hdisj⟩ := List.nodup_flatMap.mp (mark_nodup log)
    exact List.nodup_flatMap.mpr
      ⟨fun t ht => hchunk t (List.mem_of_mem_filter ht), hdisj.filter _⟩
  rw [Intact, acceptedBy, List.filter_congr hm, ← inOrder_mark, inOrder_filter]
  exact ⟨steady_of_nodup hn, taken_prefix⟩

/-! The items themselves are a prefix too. -/

def Transfer.unmark (t : Transfer ε ((ℕ × ℕ) × α)) : Transfer ε α :=
  ⟨t.source, t.dest, t.chunk.map Prod.snd, t.accepted⟩

omit [DecidableEq ε] in
theorem unmark_mark (log : List (Transfer ε α)) : (mark log).map Transfer.unmark = log := by
  refine List.ext_getElem (by simp [mark]) fun i _ _ => ?_
  have hchunk (t : Transfer ε α) :
      (t.chunk.mapIdx fun j x => ((i, j), x)).map Prod.snd = t.chunk :=
    List.ext_getElem (by simp) fun j _ _ => by simp
  simp [mark, Transfer.unmark, hchunk]

theorem Intact.items (h : Intact log a b) : acceptedBy log b <+: readFrom log a := by
  have hr : (readFrom (mark log) a).map Prod.snd = readFrom log a := by
    conv_rhs => rw [← unmark_mark log]
    rw [readFrom, readFrom, List.filter_map, List.flatMap_map, List.map_flatMap]
    rfl
  have ha : (acceptedBy (mark log) b).map Prod.snd = acceptedBy log b := by
    conv_rhs => rw [← unmark_mark log]
    rw [acceptedBy, acceptedBy, List.filter_map, List.flatMap_map, List.map_flatMap]
    simp only [Transfer.taken, Transfer.unmark, List.map_take]
    rfl
  rw [← ha, ← hr]
  exact h.map Prod.snd

end Log

end Forwarding
