import Mathlib.Data.List.Basic
import Mathlib.Tactic.Common

/-! # A room in which everybody hears the others
Its log says who came, who left and who said what; from it follows what each member has heard
while in the room. Nothing here names a program. -/
namespace Room

universe u v

variable {κ : Type u} {α : Type v}

/-- A newcomer is announced to the others with a notice. -/
inductive Entry (κ : Type u) (α : Type v) where
  | joined (k : κ) (notice : List α)
  | left (k : κ)
  | said (k : κ) (text : List α)

variable [DecidableEq κ]

/-- Whether `r` is in the room after the entry, and what it hears of it. -/
def Entry.hear (r : κ) (present : Bool) : Entry κ α → Bool × List α
  | .joined k notice => if k = r then (true, []) else (present, if present then notice else [])
  | .left k => (if k = r then false else present, [])
  | .said k text => (present, if present ∧ k ≠ r then text else [])

/-- Whether `r` is in the room at the end of the log, and all that it has heard. -/
def follow (r : κ) (log : List (Entry κ α)) : Bool × List α :=
  log.foldl (fun t e => ((e.hear r t.1).1, t.2 ++ (e.hear r t.1).2)) (false, [])

def present (r : κ) (log : List (Entry κ α)) : Bool := (follow r log).1

def transcript (r : κ) (log : List (Entry κ α)) : List α := (follow r log).2

def Entry.spoken (k : κ) : Entry κ α → List α
  | .said k' text => if k' = k then text else []
  | _ => []

/-- All that `k` has said. -/
def spoken (k : κ) (log : List (Entry κ α)) : List α := log.flatMap (Entry.spoken k)

variable {r k : κ} {log : List (Entry κ α)} {text : List α}

theorem present_concat (e : Entry κ α) :
    present r (log ++ [e]) = (e.hear r (present r log)).1 := by
  rw [present, follow, List.foldl_append]
  rfl

theorem transcript_concat (e : Entry κ α) :
    transcript r (log ++ [e]) = transcript r log ++ (e.hear r (present r log)).2 := by
  rw [transcript, follow, List.foldl_append]
  rfl

theorem spoken_concat (e : Entry κ α) :
    spoken r (log ++ [e]) = spoken r log ++ e.spoken r := by
  rw [spoken, List.flatMap_append, List.flatMap_singleton, spoken]

@[simp] theorem not_present_nil : present r ([] : List (Entry κ α)) = false := rfl

@[simp] theorem present_joined :
    present r (log ++ [.joined k text]) = true ↔ k = r ∨ present r log = true := by
  rw [present_concat]
  by_cases hk : k = r <;> simp [Entry.hear, hk]

@[simp] theorem present_left :
    present r (log ++ [.left k]) = true ↔ k ≠ r ∧ present r log = true := by
  rw [present_concat]
  by_cases hk : k = r <;> simp [Entry.hear, hk]

@[simp] theorem present_said : present r (log ++ [.said k text]) = present r log := by
  rw [present_concat, Entry.hear]

@[simp] theorem transcript_left : transcript r (log ++ [.left k]) = transcript r log := by
  rw [transcript_concat, Entry.hear, List.append_nil]

@[simp] theorem spoken_joined : spoken r (log ++ [.joined k text]) = spoken r log := by
  rw [spoken_concat]
  exact List.append_nil _

@[simp] theorem spoken_left : spoken r (log ++ [.left k]) = spoken r log := by
  rw [spoken_concat]
  exact List.append_nil _

@[simp] theorem spoken_said :
    spoken r (log ++ [.said k text]) = spoken r log ++ if k = r then text else [] := by
  rw [spoken_concat, Entry.spoken]

end Room
