import SourceMarks.Text.Basic

/-! Where a word occurs in a text, and why it cannot lie across the seam of two texts. -/
namespace SourceMarks.Text
variable {x a b : Text}

theorem after?_eq_some_iff {lead text rest : Text} :
    after? lead text = some rest ↔ text = lead ++ rest := by
  induction lead generalizing text with
  | nil => simp [after?]
  | cons c lead ih =>
    cases text with
    | nil => simp [after?]
    | cons d text =>
      by_cases h : c = d
      · simp [after?, h, ih]
      · simp [after?, h, Ne.symm h]

theorem after?_append (lead rest : Text) : after? lead (lead ++ rest) = some rest :=
  after?_eq_some_iff.mpr rfl

theorem isSome_after?_iff {lead text : Text} : (after? lead text).isSome ↔ lead <+: text := by
  rw [Option.isSome_iff_exists]
  constructor
  · intro h
    obtain ⟨rest, h⟩ := h
    exact ⟨rest, (after?_eq_some_iff.mp h).symm⟩
  · intro h
    obtain ⟨rest, rfl⟩ := h
    exact ⟨rest, after?_append lead rest⟩

theorem isSome_before?_iff {needle text : Text} :
    (before? needle text).isSome ↔ needle <:+: text := by
  induction text with
  | nil => cases needle <;> simp [before?]
  | cons c rest ih =>
    rw [List.infix_cons_iff, ← isSome_after?_iff, ← ih, before?]
    cases h : (after? needle (c :: rest)).isSome <;> simp

/-- Two texts in a row hold a word as often as they do apart, or more often. -/
theorem countOf_add_le (needle a b : Text) :
    countOf needle a + countOf needle b ≤ countOf needle (a ++ b) := by
  induction a with
  | nil => simp [countOf]
  | cons c a ih =>
    have hc : (after? needle (c :: a)).isSome → (after? needle (c :: (a ++ b))).isSome := by
      rw [isSome_after?_iff, isSome_after?_iff]
      exact fun h => h.trans (List.prefix_append (c :: a) b)
    rw [List.cons_append, countOf, countOf]
    by_cases h : (after? needle (c :: a)).isSome
    · rw [if_pos h, if_pos (hc h)]
      omega
    · rw [if_neg h]
      omega

theorem countOf_pos {needle text : Text} (hn : needle ≠ []) (h : needle <:+: text) :
    0 < countOf needle text := by
  induction text with
  | nil => exact absurd (List.infix_nil.mp h) hn
  | cons c text ih =>
    rw [countOf]
    cases List.infix_cons_iff.mp h with
    | inl h =>
      rw [if_pos (isSome_after?_iff.mpr h)]
      omega
    | inr h =>
      have hi := ih h
      omega

/-- A word that lacks the first character behind a seam lies on one side of it. -/
theorem infix_of_head_not_mem (h : ∀ c ∈ b.head?, c ∉ x) (hx : x <:+: a ++ b) :
    x <:+: a ∨ x <:+: b := by
  obtain ha | hb | ⟨l, r, -, hr, rfl, -, hb⟩ := List.infix_append_iff_ne_nil.mp hx
  · exact Or.inl ha
  · exact Or.inr hb
  · cases r with
    | nil => exact absurd rfl hr
    | cons c r =>
      obtain ⟨t, rfl⟩ := hb
      exact absurd (by simp) (h c rfl)

/-- A word does not begin in a text that lacks its first character. -/
theorem infix_of_not_mem {c : Char} (ha : c ∉ a) (h : c :: x <:+: a ++ b) : c :: x <:+: b := by
  induction a with
  | nil => exact h
  | cons d a ih =>
    cases List.infix_cons_iff.mp h with
    | inl hp => exact absurd (List.cons_prefix_cons.mp hp).1 (List.ne_of_not_mem_cons ha)
    | inr hi => exact ih (List.not_mem_of_not_mem_cons ha) hi

theorem prefix_of_head_not_mem {α : Type} {x a b : List α} (h : ∀ c ∈ b.head?, c ∉ x)
    (hx : x <+: a ++ b) : x <+: a := by
  cases List.prefix_or_prefix_of_prefix hx (List.prefix_append a b) with
  | inl ha => exact ha
  | inr ha =>
    obtain ⟨r, rfl⟩ := ha
    have hb : r <+: b := (List.prefix_append_right_inj a).mp hx
    cases r with
    | nil => simp
    | cons c r =>
      obtain ⟨t, rfl⟩ := hb
      exact absurd (by simp) (h c rfl)

theorem prefix_of_last_not_mem {c : Char} (ha : a.getLast? = some c) (hc : c ∉ x)
    (hx : x <+: a ++ b) : x <+: a := by
  cases List.prefix_or_prefix_of_prefix hx (List.prefix_append a b) with
  | inl h => exact h
  | inr h => exact absurd (h.subset (List.mem_of_getLast? ha)) hc

/-- A suffix of two texts lies in the second or begins in the first. -/
theorem suffix_append_cases (h : x <:+ a ++ b) :
    x <:+ b ∨ ∃ y, y ≠ [] ∧ y <:+ a ∧ x = y ++ b := by
  cases List.suffix_or_suffix_of_suffix h (List.suffix_append a b) with
  | inl hb => exact Or.inl hb
  | inr hx =>
    obtain ⟨y, rfl⟩ := hx
    cases y with
    | nil => exact Or.inl List.suffix_rfl
    | cons c y =>
      exact Or.inr ⟨c :: y, List.cons_ne_nil c y, List.suffix_append_self_iff.mp h, rfl⟩

theorem getLast?_of_suffix (hn : x ≠ []) (h : x <:+ a) : x.getLast? = a.getLast? := by
  obtain ⟨t, rfl⟩ := h
  cases hx : x.getLast? with
  | none => exact absurd (List.getLast?_eq_none_iff.mp hx) hn
  | some c => simp [List.getLast?_append, hx]

/-- A beginning of a text is one of another text that starts alike and goes on as far. -/
theorem prefix_append_of_tail {y : Text} (hx : x <+: y ++ a)
    (h : ∀ z, x = y ++ z → z <+: a → z <+: b) : x <+: y ++ b := by
  cases List.prefix_or_prefix_of_prefix hx (List.prefix_append y a) with
  | inl hy => exact hy.trans (List.prefix_append y b)
  | inr hy =>
    obtain ⟨z, rfl⟩ := hy
    exact (List.prefix_append_right_inj y).mpr (h z rfl ((List.prefix_append_right_inj y).mp hx))

/-- A text in quotes. -/
structure Quoted (t : Text) : Prop where
  head : t.head? = some '"'
  last : t.getLast? = some '"'

theorem Quoted.append (ha : Quoted a) (hb : Quoted b) (c : Text) :
    Quoted (a ++ c ++ b) := by
  constructor
  · simp [ha.head]
  · simp [hb.last]

end SourceMarks.Text
