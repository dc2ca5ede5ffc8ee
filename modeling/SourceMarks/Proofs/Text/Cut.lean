import Mathlib.Data.List.Induction
import Mathlib.Data.List.TakeWhile
import SourceMarks.Text.Blank

/-! Cutting a text loses nothing, and trimming it only blanks. -/
namespace SourceMarks.Text

theorem cutAfterLast_append (p : Char → Bool) (t : Text) :
    (cutAfterLast p t).1 ++ (cutAfterLast p t).2 = t := by
  induction t with
  | nil => rfl
  | cons c t ih =>
    rw [cutAfterLast]
    split
    · next tail hc =>
      rw [hc] at ih
      obtain rfl : tail = t := ih
      by_cases hp : p c <;> simp [hp]
    · next front tail _ hc =>
      rw [hc] at ih
      exact congrArg (c :: ·) ih

theorem cutAfterLast_of_none {p : Char → Bool} {t : Text} (h : ∀ c ∈ t, p c = false) :
    cutAfterLast p t = ([], t) := by
  induction t with
  | nil => rfl
  | cons c t ih =>
    rw [List.forall_mem_cons] at h
    simp [cutAfterLast, ih h.2, h.1]

theorem cutAfterLast_eq {p : Char → Bool} {c : Char} {y : Text} (hc : p c = true)
    (hy : ∀ d ∈ y, p d = false) (x : Text) : cutAfterLast p (x ++ c :: y) = (x ++ [c], y) := by
  induction x with
  | nil => simp [cutAfterLast, cutAfterLast_of_none hy, hc]
  | cons d x ih =>
    rw [List.cons_append, cutAfterLast, ih]
    cases x <;> rfl

theorem cutAfterLast_append_of_none {p : Char → Bool} {b : Text} (h : ∀ c ∈ b, p c = false)
    (a : Text) :
    cutAfterLast p (a ++ b) = ((cutAfterLast p a).1, (cutAfterLast p a).2 ++ b) := by
  induction a with
  | nil => exact cutAfterLast_of_none h
  | cons c a ih =>
    rw [List.cons_append, cutAfterLast, cutAfterLast, ih]
    obtain ⟨_ | ⟨d, front⟩, tail⟩ := cutAfterLast p a
    · cases hp : p c <;> simp
    · rfl

theorem exists_last_of_mem {c : Char} {t : Text} (h : c ∈ t) : ∃ x y, t = x ++ c :: y ∧ c ∉ y := by
  obtain ⟨y, x, hxy, hy⟩ := List.eq_append_cons_of_mem (List.mem_reverse.mpr h)
  refine ⟨x.reverse, y.reverse, ?_, by simpa using hy⟩
  rw [← t.reverse_reverse, hxy]
  simp

/-- Blanks at the beginning stand in front of the first other character. -/
theorem trimStart_append {c : Char} {a : Text} (h : c ∈ a) (hc : isBlank c = false) (b : Text) :
    trimStart (a ++ b) = trimStart a ++ b := by
  have hn : ¬ (a.dropWhile isBlank).isEmpty := by
    rw [List.isEmpty_iff, List.dropWhile_eq_nil_iff]
    intro hall
    rw [hall c h] at hc
    cases hc
  rw [trimStart, List.dropWhile_append, if_neg hn]
  rfl

theorem dropEnd_prefix (p : Char → Bool) (t : Text) : dropEnd p t <+: t := by
  induction t with
  | nil => exact List.prefix_rfl
  | cons c t ih =>
    rw [dropEnd]
    split
    · next h =>
      by_cases hp : p c <;> simp [hp]
    · exact List.cons_prefix_cons.mpr ⟨rfl, ih⟩

theorem exists_dropEnd (p : Char → Bool) (t : Text) :
    ∃ e, t = dropEnd p t ++ e ∧ ∀ c ∈ e, p c = true := by
  induction t with
  | nil => exact ⟨[], rfl, by simp⟩
  | cons c t ih =>
    obtain ⟨e, ht, he⟩ := ih
    rw [dropEnd]
    split
    · next h =>
      rw [h, List.nil_append] at ht
      cases hp : p c with
      | true => exact ⟨c :: e, by simp [ht], List.forall_mem_cons.mpr ⟨hp, he⟩⟩
      | false => exact ⟨e, by simp [ht], he⟩
    · exact ⟨e, congrArg (c :: ·) ht, he⟩

/-- Trimming takes blanks off both ends. -/
theorem exists_trim (t : Text) :
    ∃ b e, t = b ++ (t.trim ++ e) ∧ ∀ c ∈ b ++ e, isBlank c = true := by
  obtain ⟨e, ht, he⟩ := exists_dropEnd isBlank (trimStart t)
  refine ⟨t.takeWhile isBlank, e, ?_, fun c hc => ?_⟩
  · rw [trim, trimEnd, ← ht]
    exact List.takeWhile_append_dropWhile.symm
  · cases List.mem_append.mp hc with
    | inl hb => exact List.all_eq_true.mp List.all_takeWhile c hb
    | inr hb => exact he c hb

theorem dropEnd_append_singleton {p : Char → Bool} {c : Char} (h : p c = false) (x : Text) :
    dropEnd p (x ++ [c]) = x ++ [c] := by
  induction x with
  | nil => simp [dropEnd, h]
  | cons d x ih =>
    rw [List.cons_append, dropEnd, ih]
    split
    · next hn => simp at hn
    · rfl

theorem dropEnd_concat {p : Char → Bool} {c : Char} (h : p c = true) (x : Text) :
    dropEnd p (x ++ [c]) = dropEnd p x := by
  induction x with
  | nil => simp [dropEnd, h]
  | cons d x ih => rw [List.cons_append, dropEnd, dropEnd, ih]

theorem getLast?_dropEnd (p : Char → Bool) (t : Text) :
    ∀ c ∈ (dropEnd p t).getLast?, p c = false := by
  induction t with
  | nil => simp [dropEnd]
  | cons d t ih =>
    rw [dropEnd]
    split
    · split <;> simp_all
    · next hne =>
      intro c hc
      rw [List.getLast?_cons_of_ne_nil hne] at hc
      exact ih c hc

theorem dropEnd_append_of_forall {p : Char → Bool} {e : Text} (he : ∀ c ∈ e, p c = true)
    (x : Text) :
    dropEnd p (x ++ e) = dropEnd p x := by
  induction e using List.reverseRecOn with
  | nil => rw [List.append_nil]
  | append_singleton e c ih =>
    rw [← List.append_assoc, dropEnd_concat (he c (by simp))]
    exact ih fun d hd => he d (List.mem_append_left _ hd)

theorem dropEnd_of_getLast? {p : Char → Bool} {x : Text} (hx : ∀ c ∈ x.getLast?, p c = false) :
    dropEnd p x = x := by
  induction x using List.reverseRecOn with
  | nil => rfl
  | append_singleton y c _ => exact dropEnd_append_singleton (hx c (by simp)) y

theorem dropEnd_append {p : Char → Bool} {x e : Text} (hx : ∀ c ∈ x.getLast?, p c = false)
    (he : ∀ c ∈ e, p c = true) : dropEnd p (x ++ e) = x := by
  rw [dropEnd_append_of_forall he, dropEnd_of_getLast? hx]

theorem trimStart_of_forall {t : Text} (h : ∀ c ∈ t, isBlank c = false) : trimStart t = t := by
  cases t with
  | nil => rfl
  | cons c t => simp [trimStart, h c List.mem_cons_self]

theorem getLast?_trim {t : Text} {c : Char} (h : t.getLast? = some c) (hc : isBlank c = false) :
    t.trim.getLast? = some c := by
  obtain ⟨x, rfl⟩ := List.getLast?_eq_some_iff.mp h
  obtain ⟨y, hy⟩ : ∃ y, trimStart (x ++ [c]) = y ++ [c] := by
    rw [trimStart, List.dropWhile_append]
    by_cases he : (x.dropWhile isBlank).isEmpty
    · exact ⟨[], by simp [he, hc]⟩
    · exact ⟨x.dropWhile isBlank, by simp [he]⟩
  rw [trim, hy, trimEnd, dropEnd_append_singleton hc, List.getLast?_concat]

end SourceMarks.Text
