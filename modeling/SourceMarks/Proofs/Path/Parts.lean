import Mathlib.Data.List.Induction
import SourceMarks.Proofs.Text.Split
import SourceMarks.Path.Basic

/-!
The parts of joined paths. A path made of names is found again below the path it was joined to, and
a file name below its parent, however the first parts are written.
-/
namespace SourceMarks.Path
open PathSymbol
variable {α : Type} [DecidableEq α] [PathSymbol α] {p q : Path α} {n part : Text α}
  {init names parts : List (Text α)}

/-- The path with some parts. -/
def ofParts (parts : List (Text α)) : Path α := ⟨Text.join [slash] parts⟩

/-- A part that leads nowhere else. -/
def Idle (part : Text α) : Prop := part = [] ∨ part = [dot]

theorem slash_not_mem_of_mem_parts (h : part ∈ p.parts) : slash ∉ part :=
  Text.not_mem_of_mem_split h

theorem ofParts_parts (p : Path α) : ofParts p.parts = p :=
  congrArg Path.mk (Text.join_split slash p.text)

theorem eq_of_parts (h : p.parts = q.parts) : p = q := by
  rw [← ofParts_parts p, h, ofParts_parts]

theorem bodyParts_of_relative (h : p.isAbsolute = false) : p.bodyParts = p.parts := by
  simp [bodyParts, h]

theorem head?_parts (h : p.isAbsolute = false) (ht : p.text ≠ []) : p.parts.head? ≠ some [] := by
  intro hs
  cases hp : p.text with
  | nil => exact ht hp
  | cons c t =>
    have hc : c ≠ slash := by
      intro e
      simp [isAbsolute, hp, e] at h
    obtain ⟨q, qs, -, hq⟩ := Text.split_cons_of_ne hc t
    simp [parts, hp, hq] at hs

theorem head?_of_parts (h : p.isAbsolute = false) (ht : p.text ≠ [])
    (hp : p.parts = init ++ parts) :
    init.head? ≠ some [] := by
  intro he
  exact head?_parts h ht (by simp [hp, he])

section OfParts
variable (hs : ∀ x ∈ parts, slash ∉ x)
include hs

theorem parts_ofParts (hn : parts ≠ []) : (ofParts parts).parts = parts := Text.split_join hs hn

theorem isAbsolute_ofParts (hh : parts.head? ≠ some []) : (ofParts parts).isAbsolute = false := by
  cases parts with
  | nil => rfl
  | cons x parts =>
    cases x with
    | nil => exact absurd rfl hh
    | cons c x =>
      have hc : c ≠ slash := fun e => hs _ List.mem_cons_self (by simp [e])
      cases parts <;> simp [ofParts, isAbsolute, Text.join, hc]

end OfParts

section Names
variable (hn : ∀ n ∈ names, n ≠ [] ∧ slash ∉ n)
include hn

omit [DecidableEq α] in
theorem slash_not_mem_names : ∀ n ∈ names, slash ∉ n := fun n h => (hn n h).2

omit [DecidableEq α] in
theorem head?_names : names.head? ≠ some [] := by
  intro h
  exact (hn [] (List.mem_of_head? h)).1 rfl

omit [DecidableEq α] in
theorem text_ofParts_names : (ofParts names).text = [] ↔ names = [] :=
  Text.join_eq_nil_iff fun n h => (hn n h).1

theorem ofParts_inj {names' : List (Text α)} (hn' : ∀ n ∈ names', n ≠ [] ∧ slash ∉ n)
    (h : ofParts names = ofParts names') : names = names' := by
  by_cases he : names = []
  · have he' : names' = [] := (text_ofParts_names hn').mp (h ▸ (text_ofParts_names hn).mpr he)
    rw [he, he']
  · have he' : names' ≠ [] := fun e =>
      he ((text_ofParts_names hn).mp (h ▸ (text_ofParts_names hn').mpr e))
    rw [← parts_ofParts (slash_not_mem_names hn) he, h,
      parts_ofParts (slash_not_mem_names hn') he']

end Names

/-- The parts that another path is added to: all but an empty one at the end. -/
def stem (parts : List (Text α)) : List (Text α) :=
  if parts.getLast? = some [] then parts.dropLast else parts

omit [PathSymbol α] in
theorem stem_append (parts : List (Text α)) :
    ∃ rest, parts = stem parts ++ rest ∧ ∀ x ∈ rest, x = [] := by
  rw [stem]
  split
  · next h =>
    obtain ⟨init, rfl⟩ := List.getLast?_eq_some_iff.mp h
    exact ⟨[[]], by simp, by simp⟩
  · exact ⟨[], by simp, by simp⟩

omit [PathSymbol α] in
theorem stem_concat (init : List (Text α)) (part : Text α) :
    stem (init ++ [part]) = if part = [] then init else init ++ [part] := by
  simp [stem]

omit [PathSymbol α] in
theorem stem_cons (part : Text α) (hn : parts ≠ []) :
    stem (part :: parts) = part :: stem parts := by
  rw [← List.dropLast_concat_getLast hn, ← List.cons_append, stem_concat, stem_concat]
  split <;> rfl

/-- In front of the last part there is nothing or a separator. -/
theorem text_of_parts (h : p.parts = init ++ [n]) :
    ∃ t, p.text = t ++ n ∧ (t = [] ∨ t.getLast? = some slash) := by
  have hj : Text.join [slash] p.parts = p.text := Text.join_split slash p.text
  rw [h] at hj
  by_cases hi : init = []
  · exact ⟨[], by simp [← hj, hi, Text.join], Or.inl rfl⟩
  · rw [Text.join_append _ hi (by simp)] at hj
    exact ⟨_, hj.symm, Or.inr (by simp)⟩

theorem getLast?_parts (p : Path α) :
    p.parts.getLast? = some [] ↔ p.text = [] ∨ p.text.getLast? = some slash := by
  have hne : p.parts ≠ [] := Text.split_ne_nil slash p.text
  have hs := slash_not_mem_of_mem_parts (List.getLast_mem hne)
  obtain ⟨t, ht, hl⟩ := text_of_parts (List.dropLast_concat_getLast hne).symm
  rw [List.getLast?_eq_some_getLast hne, Option.some_inj, ht]
  by_cases hn : p.parts.getLast hne = []
  · simpa [hn] using hl
  · have hc : (p.parts.getLast hne).getLast? ≠ some slash := fun e => hs (List.mem_of_getLast? e)
    simp [hn, List.getLast?_append, hc]

theorem parts_join (hq : q.isAbsolute = false) : (p.join q).parts = stem p.parts ++ q.parts := by
  have hlast : ∀ t : Text α, Text.split slash (t ++ [slash]) = Text.split slash t ++ [[]] :=
    fun t => Text.split_append slash t []
  rw [join, if_neg (by simp [hq])]
  split
  · next h =>
    cases (Bool.or_eq_true _ _).mp h with
    | inl h =>
      have ht : p.text = [] := by simpa using h
      simp [parts, ht, Text.split, stem]
    | inr h =>
      obtain ⟨t, ht⟩ := List.getLast?_eq_some_iff.mp (of_decide_eq_true h)
      rw [parts, parts, ht, hlast, stem_concat, if_pos rfl, List.append_assoc,
        List.singleton_append, Text.split_append]
      rfl
  · next h =>
    rw [stem, if_neg (mt (getLast?_parts p).mp (by simpa using h))]
    exact Text.split_append slash p.text q.text

theorem stem_append_names (hn : ∀ n ∈ names, n ≠ [] ∧ slash ∉ n) (hne : names ≠ [])
    (init : List (Text α)) :
    stem (init ++ names) = init ++ names := by
  have hl := (hn _ (List.getLast_mem hne)).1
  rw [← List.dropLast_concat_getLast hne, ← List.append_assoc, stem_concat, if_neg hl]

theorem parts_join_names (hn : ∀ n ∈ names, n ≠ [] ∧ slash ∉ n) (hne : names ≠ []) (p : Path α) :
    (p.join (ofParts names)).parts = stem p.parts ++ names := by
  have hs := slash_not_mem_names hn
  rw [parts_join (isAbsolute_ofParts hs (head?_names hn)), parts_ofParts hs hne]

theorem join_names_inj {names' : List (Text α)} (hn : ∀ n ∈ names, n ≠ [] ∧ slash ∉ n)
    (hne : names ≠ []) (hn' : ∀ n ∈ names', n ≠ [] ∧ slash ∉ n) (hne' : names' ≠ [])
    (h : p.join (ofParts names) = p.join (ofParts names')) : names = names' := by
  have hp := congrArg parts h
  rw [parts_join_names hn hne, parts_join_names hn' hne'] at hp
  exact List.append_cancel_left hp

theorem isAbsolute_join (hq : q.isAbsolute = false) : (p.join q).isAbsolute = p.isAbsolute := by
  rw [join, if_neg (by simp [hq])]
  cases ht : p.text with
  | nil => simpa [isAbsolute, ht] using hq
  | cons c t => split <;> simp [isAbsolute, ht]

theorem parts_of_absolute (h : p.isAbsolute = true) : p.parts = [] :: p.bodyParts := by
  obtain ⟨t, ht⟩ : ∃ t, p.text = slash :: t := List.head?_eq_some_iff.mp (of_decide_eq_true h)
  simp [bodyParts, h, parts, ht, Text.split]

theorem bodyParts_ne_nil (p : Path α) : p.bodyParts ≠ [] := by
  cases h : p.isAbsolute with
  | false =>
    rw [bodyParts_of_relative h]
    exact Text.split_ne_nil slash p.text
  | true =>
    obtain ⟨t, ht⟩ : ∃ t, p.text = slash :: t := List.head?_eq_some_iff.mp (of_decide_eq_true h)
    have hb : p.bodyParts = Text.split slash t := by simp [bodyParts, h, parts, ht, Text.split]
    exact hb ▸ Text.split_ne_nil slash t

theorem mem_parts_of_mem_bodyParts (h : part ∈ p.bodyParts) : part ∈ p.parts := by
  cases ha : p.isAbsolute with
  | false => rwa [bodyParts_of_relative ha] at h
  | true =>
    rw [parts_of_absolute ha]
    exact List.mem_cons_of_mem [] h

theorem bodyParts_join (hq : q.isAbsolute = false) :
    (p.join q).bodyParts = stem p.bodyParts ++ q.parts := by
  have hj := parts_join (p := p) hq
  have ha := isAbsolute_join (p := p) hq
  cases hp : p.isAbsolute with
  | false => rw [bodyParts_of_relative (ha.trans hp), bodyParts_of_relative hp, hj]
  | true =>
    rw [parts_of_absolute (ha.trans hp), parts_of_absolute hp, stem_cons [] (bodyParts_ne_nil p),
      List.cons_append] at hj
    exact (List.cons.inj hj).2

theorem bodyParts_join_names (hn : ∀ n ∈ names, n ≠ [] ∧ slash ∉ n) (hne : names ≠ [])
    (p : Path α) : (p.join (ofParts names)).bodyParts = stem p.bodyParts ++ names := by
  have hs := slash_not_mem_names hn
  rw [bodyParts_join (isAbsolute_ofParts hs (head?_names hn)), parts_ofParts hs hne]

/-- The last part is empty where the path ends in a separator, and where there is no path. -/
theorem getLast?_bodyParts (h : p.text ≠ []) :
    p.bodyParts.getLast? = some [] ↔ p.text.getLast? = some slash := by
  have hparts := getLast?_parts p
  simp only [h, false_or] at hparts
  rw [← hparts]
  cases ha : p.isAbsolute with
  | false => rw [bodyParts_of_relative ha]
  | true =>
    rw [parts_of_absolute ha, List.getLast?_cons_of_ne_nil (bodyParts_ne_nil p)]

/-- A text with a separator behind it, unless it is empty or has one there. -/
def opened (t : Text α) : Text α := if t = [] ∨ t.getLast? = some slash then t else t ++ [slash]

theorem getLast?_opened {t : Text α} (ht : t ≠ []) : (opened t).getLast? = some slash := by
  by_cases h : t.getLast? = some slash <;> simp [opened, ht, h]

theorem join_of_absolute (hq : q.isAbsolute = true) : p.join q = q := if_pos hq

theorem join_of_relative (hq : q.isAbsolute = false) : p.join q = ⟨opened p.text ++ q.text⟩ := by
  rw [join, if_neg (by simp [hq]), opened]
  by_cases h : p.text = [] ∨ p.text.getLast? = some slash <;> simp [h]

theorem isAbsolute_name (h : slash ∉ n) : (Path.mk n).isAbsolute = false :=
  decide_eq_false fun hh => h (List.mem_of_head? hh)

theorem prefix_text_join (hq : q.isAbsolute = false) : p.text <+: (p.join q).text := by
  have ho : p.text <+: opened p.text := by
    rw [opened]
    split
    · exact List.prefix_rfl
    · exact List.prefix_append _ _
  rw [join_of_relative hq]
  exact ho.trans (List.prefix_append _ _)

theorem text_join_ne_nil (hq : q.isAbsolute = false) (hn : q.text ≠ []) : (p.join q).text ≠ [] := by
  rw [join_of_relative hq]
  exact List.append_ne_nil_of_right_ne_nil _ hn

theorem prefix_text_under (hn : ∀ n ∈ names, n ≠ [] ∧ slash ∉ n) (p : Path α) :
    p.text <+: (p.under names).text := by
  induction names generalizing p with
  | nil => exact List.prefix_rfl
  | cons n names ih =>
    rw [List.forall_mem_cons] at hn
    exact (prefix_text_join (isAbsolute_name hn.1.2)).trans (ih hn.2 _)

theorem opened_append (t u : Text α) : opened (opened t ++ u) = opened t ++ opened u := by
  have ht : opened t = [] ∨ (opened t).getLast? = some slash := by
    by_cases h : t = [] ∨ t.getLast? = some slash <;> simp [opened, h]
  by_cases hu : u = []
  · have hn : opened ([] : Text α) = [] := rfl
    rw [hu, List.append_nil, hn, List.append_nil, opened, if_pos ht]
  · have hl : (opened t ++ u).getLast? = u.getLast? := by
      rw [List.getLast?_append, Option.or_of_isSome (by simpa using hu)]
    by_cases hs : u.getLast? = some slash <;>
      simp [opened.eq_def u, opened.eq_def (_ ++ _), hl, hu, hs]

/-- Joining one after the other is joining at once. -/
theorem join_join {r : Path α} (hr : r.isAbsolute = false) :
    (p.join q).join r = p.join (q.join r) := by
  by_cases hq : q.isAbsolute = true
  · rw [join_of_absolute hq, join_of_absolute ((isAbsolute_join hr).trans hq)]
  · have hq : q.isAbsolute = false := by simpa using hq
    have hqr : (q.join r).isAbsolute = false := by rw [isAbsolute_join hr, hq]
    rw [join_of_relative hr, join_of_relative hqr, join_of_relative hq, join_of_relative hr,
      opened_append, List.append_assoc]

theorem ofParts_join_names {names' : List (Text α)} (hn : ∀ n ∈ names, n ≠ [] ∧ slash ∉ n)
    (hn' : ∀ n ∈ names', n ≠ [] ∧ slash ∉ n) (hne' : names' ≠ []) :
    (ofParts names).join (ofParts names') = ofParts (names ++ names') := by
  by_cases hne : names = []
  · subst hne
    rw [join_of_relative (isAbsolute_ofParts (slash_not_mem_names hn') (head?_names hn'))]
    rfl
  · have hall : ∀ n ∈ names ++ names', n ≠ [] ∧ slash ∉ n := List.forall_mem_append.mpr ⟨hn, hn'⟩
    have hstem : stem names = names := stem_append_names hn hne []
    apply eq_of_parts
    rw [parts_join_names hn' hne', parts_ofParts (slash_not_mem_names hn) hne, hstem,
      parts_ofParts (slash_not_mem_names hall) (by simp [hne])]

/-- Joining names one by one is joining them at once. -/
theorem under_eq (hn : ∀ n ∈ names, n ≠ [] ∧ slash ∉ n) (hne : names ≠ []) (p : Path α) :
    p.under names = p.join (ofParts names) := by
  induction names using List.reverseRecOn with
  | nil => exact absurd rfl hne
  | append_singleton names n ih =>
    obtain ⟨hnames, hlast⟩ := List.forall_mem_append.mp hn
    rw [under, List.foldl_append, List.foldl_cons, List.foldl_nil, ← under]
    by_cases he : names = []
    · subst he
      rfl
    · rw [ih hnames he, join_join (isAbsolute_name (hlast n (by simp)).2)]
      exact congrArg p.join (ofParts_join_names hnames hlast (List.cons_ne_nil n []))

end SourceMarks.Path
