import Mathlib.Data.List.Basic
import Mathlib.Tactic.Common

/-! # Journals
A journal is a text of entries, each a header and a body, one behind the other. A reader has only
the text, and takes a line that begins with a header for the start of an entry. When this finds the
entries, and that it then finds no others. Nothing here names a program. -/
namespace Journal

universe u v

variable {α : Type u} {κ : Type v} {sep : α} {header : κ → List α}

/-- A header is a piece of a line, and tells where it ends. -/
structure Headers (sep : α) (header : κ → List α) : Prop where
  oneLine : ∀ k, sep ∉ header k
  nonempty : ∀ k, header k ≠ []
  unique : ∀ k k' r r', header k ++ r = header k' ++ r' → k = k' ∧ r = r'

def text (header : κ → List α) (es : List (κ × List α)) : List α :=
  es.flatMap fun e => header e.1 ++ e.2

/-- A line starts behind this part of the text. -/
def LineStart (sep : α) (before : List α) : Prop := before = [] ∨ before.getLast? = some sep

def Headed (header : κ → List α) (rest : List α) : Prop := ∃ k r, rest = header k ++ r

/-- An entry starts behind this part of the text. -/
def Start (header : κ → List α) (es : List (κ × List α)) (before : List α) : Prop :=
  ∃ es₁ es₂, es = es₁ ++ es₂ ∧ es₂ ≠ [] ∧ before = text header es₁

/-- The lines that begin with a header are the starts of the entries. -/
def Readable (sep : α) (header : κ → List α) (es : List (κ × List α)) : Prop :=
  ∀ before rest, text header es = before ++ rest →
    (LineStart sep before ∧ Headed header rest ↔ Start header es before)

/-- No line of the body but its first begins with a header. -/
def Plain (sep : α) (header : κ → List α) (body : List α) : Prop :=
  ∀ u v, body = u ++ sep :: v → ¬ Headed header v

/-- The bodies are plain, and each before another entry ends its line. -/
def Separable (sep : α) (header : κ → List α) : List (κ × List α) → Prop
  | [] => True
  | e :: es => (es ≠ [] → e.2.getLast? = some sep) ∧ Plain sep header e.2 ∧
    Separable sep header es

variable {e e' : κ × List α} {es es' : List (κ × List α)} {before rest w : List α}

@[simp] theorem text_nil : text header [] = [] := rfl

@[simp] theorem text_cons : text header (e :: es) = header e.1 ++ (e.2 ++ text header es) := by
  simp [text]

theorem start_nil : ¬ Start header [] before := by
  rintro ⟨es₁, es₂, heq, hne, -⟩
  exact hne (List.append_eq_nil_iff.mp heq.symm).2

theorem start_cons : Start header (e :: es) before ↔
    before = [] ∨ ∃ later, before = header e.1 ++ (e.2 ++ later) ∧ Start header es later := by
  constructor
  · rintro ⟨es₁, es₂, heq, hne, rfl⟩
    cases es₁ with
    | nil => exact Or.inl rfl
    | cons d es₁ =>
      obtain ⟨rfl, rfl⟩ := List.cons.inj heq
      exact Or.inr ⟨text header es₁, text_cons, es₁, es₂, rfl, hne, rfl⟩
  · rintro (rfl | ⟨later, rfl, es₁, es₂, rfl, hne, rfl⟩)
    · exact ⟨[], e :: es, rfl, by simp, rfl⟩
    · exact ⟨e :: es₁, es₂, rfl, hne, text_cons.symm⟩

theorem start_first (hne : es ≠ []) : Start header es [] := ⟨[], es, rfl, hne, rfl⟩

theorem start_nil_iff : Start header es [] ↔ es ≠ [] := by
  refine ⟨?_, start_first⟩
  rintro hs rfl
  exact start_nil hs

theorem start_later (hh : Headers sep header) :
    Start header (e :: es) (header e.1 ++ (e.2 ++ before)) ↔ Start header es before := by
  rw [start_cons]
  constructor
  · rintro (hnil | ⟨later, heq, hs⟩)
    · exact absurd (List.append_eq_nil_iff.mp hnil).1 (hh.nonempty e.1)
    · rw [List.append_right_inj, List.append_right_inj] at heq
      rwa [heq]
  · exact fun hs => Or.inr ⟨before, rfl, hs⟩

/-! ## Lines and headers -/

theorem lineStart_append {first second : List α} (hne : second ≠ []) :
    LineStart sep (first ++ second) ↔ LineStart sep second := by
  have hlast : (first ++ second).getLast? = second.getLast? :=
    List.getLast?_append_of_ne_nil first hne
  unfold LineStart
  rw [hlast, List.append_eq_nil_iff]
  apply or_congr_left
  exact and_iff_right_of_imp fun hnil => absurd hnil hne

theorem LineStart.ends (h : LineStart sep before) (hne : before ≠ []) :
    before.getLast? = some sep := h.resolve_left hne

/-- A line that ends later has its whole header before its end. -/
theorem headed_of_append (hh : Headers sep header) {t : List α}
    (h : Headed header (w ++ sep :: t)) : Headed header w := by
  obtain ⟨k, r, heq⟩ := h
  rcases List.append_eq_append_iff.mp heq with ⟨m, hm, hr⟩ | ⟨m, rfl, -⟩
  · cases m with
    | nil => exact ⟨k, [], by rw [hm]; simp⟩
    | cons b m =>
      obtain ⟨rfl, -⟩ := List.cons.inj hr
      refine absurd ?_ (hh.oneLine k)
      rw [hm]
      exact List.mem_append_right _ List.mem_cons_self
  · exact ⟨k, m, rfl⟩

theorem Headed.ne_nil (hh : Headers sep header) (h : Headed header rest) : rest ≠ [] := by
  rintro rfl
  obtain ⟨k, r, heq⟩ := h
  exact hh.nonempty k (List.append_eq_nil_iff.mp heq.symm).1

theorem text_headed (hne : es ≠ []) : Headed header (text header es) := by
  obtain ⟨e, es, rfl⟩ := List.exists_cons_of_ne_nil hne
  exact ⟨e.1, e.2 ++ text header es, text_cons⟩

/-- No line starts inside a header or right behind it. -/
theorem lineStart_header (hh : Headers sep header) (hne : before ≠ [])
    (h : LineStart sep before) {k : κ} {m : List α} : header k ≠ before ++ m := by
  intro heq
  have hm := List.mem_of_getLast? (h.ends hne)
  exact hh.oneLine k (heq ▸ List.mem_append_left m hm)

/-! ## Readable journals -/

theorem Readable.ended (hh : Headers sep header) (h : Readable sep header (e :: es))
    (hne : es ≠ []) : e.2.getLast? = some sep := by
  have hstart : Start header (e :: es) (header e.1 ++ e.2) :=
    start_cons.mpr (Or.inr ⟨[], by simp, start_first hne⟩)
  obtain ⟨hline, -⟩ := (h _ (text header es) (by simp)).mpr hstart
  by_cases hbody : e.2 = []
  · rw [hbody, List.append_nil] at hline
    exact absurd (List.append_nil _).symm (lineStart_header hh (hh.nonempty e.1) hline)
  · exact ((lineStart_append hbody).mp hline).ends hbody

theorem Readable.plain (hh : Headers sep header) (h : Readable sep header (e :: es)) :
    Plain sep header e.2 := by
  rintro u v hbody ⟨k, r, rfl⟩
  have hline : LineStart sep (header e.1 ++ (u ++ [sep])) := by
    rw [← List.append_assoc]
    exact Or.inr List.getLast?_concat
  have hstart := (h (header e.1 ++ (u ++ [sep])) (header k ++ r ++ text header es)
    (by simp [hbody])).mp ⟨hline, k, r ++ text header es, by simp⟩
  rcases start_cons.mp hstart with hnil | ⟨later, heq, -⟩
  · simp at hnil
  · have hlen := congrArg List.length heq
    have hpos := List.length_pos_iff.mpr (hh.nonempty k)
    simp only [hbody, List.length_append, List.length_cons, List.length_nil] at hlen
    omega

theorem Readable.tail (hh : Headers sep header) (h : Readable sep header (e :: es)) :
    Readable sep header es := by
  intro before rest heq
  by_cases hnil : before = []
  · subst hnil
    obtain rfl : text header es = rest := heq
    rw [start_nil_iff]
    constructor
    · rintro ⟨-, hhead⟩ hes
      exact hhead.ne_nil hh (by rw [hes]; rfl)
    · exact fun hne => ⟨Or.inl rfl, text_headed hne⟩
  · have hbody : e.2 ++ before ≠ [] := by simp [hnil]
    have hwhole := h (header e.1 ++ (e.2 ++ before)) rest (by simp [heq])
    rw [lineStart_append hbody, lineStart_append hnil, start_later hh] at hwhole
    exact hwhole

/-- What begins with a header behind the body of `e` is no part of that body. -/
theorem Plain.not_headed (hh : Headers sep header) (hp : Plain sep header e.2)
    (hended : es ≠ [] → e.2.getLast? = some sep) {u v : List α} (hbody : e.2 = u ++ sep :: v)
    (hv : v ≠ []) : ¬ Headed header (v ++ text header es) := by
  intro hhead
  apply hp u v hbody
  by_cases hes : es = []
  · rw [hes, text_nil, List.append_nil] at hhead
    exact hhead
  · have hlast : v.getLast? = some sep := by
      rw [← hended hes, hbody, List.append_cons, List.getLast?_append_of_ne_nil _ hv]
    obtain ⟨w, rfl⟩ := List.getLast?_eq_some_iff.mp hlast
    rw [List.append_assoc] at hhead
    obtain ⟨k, r, hw⟩ := headed_of_append hh hhead
    exact ⟨k, r ++ [sep], by rw [hw, List.append_assoc]⟩

theorem Readable.cons (hh : Headers sep header) (hended : es ≠ [] → e.2.getLast? = some sep)
    (hp : Plain sep header e.2) (h : Readable sep header es) : Readable sep header (e :: es) := by
  intro before rest heq
  rw [text_cons] at heq
  by_cases hnil : before = []
  · subst hnil
    obtain rfl := heq.symm
    exact iff_of_true ⟨Or.inl rfl, e.1, _, rfl⟩ (start_first (by simp))
  constructor
  · rintro ⟨hline, hhead⟩
    rcases List.append_eq_append_iff.mp heq with ⟨m, rfl, hm⟩ | ⟨m, hm, -⟩
    · have hmne : m ≠ [] := by
        rintro rfl
        refine lineStart_header (m := []) hh hnil hline (k := e.1) ?_
        simp
      have hline := (lineStart_append hmne).mp hline
      apply start_cons.mpr
      rcases List.append_eq_append_iff.mp hm with ⟨later, rfl, hlater⟩ | ⟨v, hv, rfl⟩
      · refine Or.inr ⟨later, rfl, (h later rest hlater).mp ⟨?_, hhead⟩⟩
        by_cases hlnil : later = []
        · exact Or.inl hlnil
        · exact (lineStart_append hlnil).mp hline
      · obtain ⟨u, rfl⟩ := List.getLast?_eq_some_iff.mp (hline.ends hmne)
        rw [List.append_assoc] at hv
        by_cases hvnil : v = []
        · subst hvnil
          refine Or.inr ⟨[], by simp [hv], start_first ?_⟩
          rintro rfl
          exact hhead.ne_nil hh rfl
        · exact absurd hhead (hp.not_headed hh hended hv hvnil)
    · exact absurd hm (lineStart_header hh hnil hline)
  · intro hstart
    obtain ⟨later, rfl, hlater⟩ := (start_cons.mp hstart).resolve_left hnil
    rw [List.append_assoc, List.append_assoc, List.append_right_inj, List.append_right_inj] at heq
    obtain ⟨hline, hhead⟩ := (h later rest heq).mpr hlater
    refine ⟨?_, hhead⟩
    by_cases hlnil : later = []
    · have hes : es ≠ [] := by
        rintro rfl
        exact start_nil hlater
      have hlast := hended hes
      have hbody : e.2 ≠ [] := by
        intro hbody
        rw [hbody] at hlast
        cases hlast
      rw [hlnil, List.append_nil, lineStart_append hbody]
      exact Or.inr hlast
    · rw [lineStart_append (by simp [hlnil]), lineStart_append hlnil]
      exact hline

theorem readable_nil (hh : Headers sep header) : Readable sep header [] := by
  intro before rest heq
  obtain ⟨rfl, rfl⟩ := List.append_eq_nil_iff.mp heq.symm
  exact iff_of_false (fun h => h.2.ne_nil hh rfl) start_nil

theorem readable_iff (hh : Headers sep header) (es : List (κ × List α)) :
    Readable sep header es ↔ Separable sep header es := by
  induction es with
  | nil => exact iff_of_true (readable_nil hh) trivial
  | cons e es ih =>
    constructor
    · intro h
      exact ⟨h.ended hh, h.plain hh, ih.mp (h.tail hh)⟩
    · rintro ⟨hended, hp, hs⟩
      exact (ih.mpr hs).cons hh hended hp

/-- Bodies that are lines can be told apart. -/
theorem separable_of_lines (hh : Headers sep header)
    (h : ∀ e ∈ es, sep ∉ e.2.dropLast ∧ e.2.getLast? = some sep) : Separable sep header es := by
  induction es with
  | nil => trivial
  | cons e es ih =>
    obtain ⟨hinside, hlast⟩ := h e List.mem_cons_self
    refine ⟨fun _ => hlast, fun u v hbody hhead => hinside ?_, ?_⟩
    · have hv : v ≠ [] := hhead.ne_nil hh
      rw [hbody, List.dropLast_append_of_ne_nil (by simp), List.dropLast_cons_of_ne_nil hv]
      simp
    · exact ih fun x hx => h x (List.mem_cons_of_mem _ hx)

/-! ## The text determines the entries -/

/-- A body is not longer than that of another reading. -/
theorem body_initial (hh : Headers sep header) {k : κ} {body later : List α}
    (h : Readable sep header ((k, body) :: es))
    (h' : Readable sep header ((k, body ++ later) :: es'))
    (heq : text header es = later ++ text header es') : later = [] := by
  by_cases hes : es = []
  · rw [hes, text_nil] at heq
    exact (List.append_eq_nil_iff.mp heq.symm).1
  · have hstart : Start header ((k, body) :: es) (header k ++ body) :=
      start_cons.mpr (Or.inr ⟨[], by simp, start_first hes⟩)
    have hread := (h (header k ++ body) (text header es) (by simp)).mpr hstart
    have hstart' := (h' (header k ++ body) (text header es) (by simp [heq])).mp hread
    rcases start_cons.mp hstart' with hnil | ⟨m, hm, -⟩
    · exact absurd (List.append_eq_nil_iff.mp hnil).1 (hh.nonempty k)
    · simp only [List.append_right_inj, List.append_assoc] at hm
      have hlen := congrArg List.length hm
      simp only [List.length_append] at hlen
      apply List.eq_nil_of_length_eq_zero
      omega

theorem text_injective (hh : Headers sep header) (h : Readable sep header es)
    (h' : Readable sep header es') (heq : text header es = text header es') : es = es' := by
  induction es generalizing es' with
  | nil =>
    cases es' with
    | nil => rfl
    | cons e' es' =>
      rw [text_nil, text_cons] at heq
      exact absurd (List.append_eq_nil_iff.mp heq.symm).1 (hh.nonempty e'.1)
  | cons e es ih =>
    cases es' with
    | nil =>
      rw [text_nil, text_cons] at heq
      exact absurd (List.append_eq_nil_iff.mp heq).1 (hh.nonempty e.1)
    | cons e' es' =>
      obtain ⟨k, body⟩ := e
      obtain ⟨k', body'⟩ := e'
      rw [text_cons, text_cons] at heq
      obtain ⟨hk, hrest⟩ := hh.unique _ _ _ _ heq
      obtain rfl : k = k' := hk
      rcases List.append_eq_append_iff.mp hrest with ⟨m, hm, htext⟩ | ⟨m, hm, htext⟩
      · obtain rfl : body' = body ++ m := hm
        obtain rfl := body_initial hh h h' htext
        rw [List.append_nil] at h' ⊢
        rw [ih (h.tail hh) (h'.tail hh) htext]
      · obtain rfl : body = body' ++ m := hm
        obtain rfl := body_initial hh h' h htext
        rw [List.append_nil] at h ⊢
        rw [ih (h.tail hh) (h'.tail hh) htext.symm]

end Journal
