import SourceMarks.Text.Position

/-! Cutting a text at a number of bytes, and the places of its offsets, which go on with them. -/
namespace SourceMarks.Text

/-- The rest of a text behind its first bytes. -/
def behind (t : Text) (n : Nat) : Text := t.drop (t.upTo n).length

theorem byteLength_append (a b : Text) :
    (a ++ b).byteLength = a.byteLength + b.byteLength := by
  induction a with
  | nil => simp [byteLength]
  | cons c a ih => simp only [List.cons_append, byteLength, ih]; omega

theorem byteLength_pos {t : Text} (h : t ≠ []) : 0 < t.byteLength := by
  cases t with
  | nil => exact absurd rfl h
  | cons c t =>
    have hc := Char.utf8Size_pos c
    rw [byteLength]
    omega

theorem byteLength_mono {a b : Text} (h : a <+: b) : a.byteLength ≤ b.byteLength := by
  obtain ⟨r, rfl⟩ := h
  rw [byteLength_append]
  omega

/-- A beginning of a text does not end inside a character. -/
theorem byteLength_front_cases {a b r : Text} {c : Char} (h : a <+: b ++ c :: r) :
    a.byteLength ≤ b.byteLength ∨ (b ++ [c]).byteLength ≤ a.byteLength := by
  rw [← List.singleton_append, ← List.append_assoc] at h
  cases List.prefix_or_prefix_of_prefix h (List.prefix_append (b ++ [c]) r) with
  | inr hr => exact Or.inr (byteLength_mono hr)
  | inl hl =>
    cases List.prefix_concat_iff.mp hl with
    | inl he => exact Or.inr (he ▸ Nat.le_refl _)
    | inr hb => exact Or.inl (byteLength_mono hb)

theorem lineAfter_append (a b : Text) : (a ++ b).lineAfter = a.lineAfter + b.count '\n' := by
  rw [lineAfter, lineAfter, List.count_append]
  omega

theorem byteLength_concat (a : Text) (c : Char) :
    (a ++ [c]).byteLength = a.byteLength + c.utf8Size := byteLength_append a [c]

theorem lineAfter_concat (a : Text) (c : Char) :
    (a ++ [c]).lineAfter = if c = '\n' then a.lineAfter + 1 else a.lineAfter := by
  rw [lineAfter_append, List.count_singleton]
  by_cases h : c = '\n' <;> simp [h]

theorem upTo_zero (t : Text) : t.upTo 0 = [] := by
  cases t with
  | nil => rfl
  | cons c t =>
    have h := Char.utf8Size_pos c
    rw [upTo, if_neg (by omega)]

theorem upTo_cons {c : Char} {n : Nat} (t : Text) (h : c.utf8Size ≤ n) :
    upTo (c :: t) n = c :: t.upTo (n - c.utf8Size) := by
  rw [upTo, if_pos h]

theorem behind_cons {c : Char} {n : Nat} (t : Text) (h : c.utf8Size ≤ n) :
    behind (c :: t) n = t.behind (n - c.utf8Size) := by
  rw [behind, upTo_cons t h]
  rfl

theorem upTo_byteLength (a b : Text) : (a ++ b).upTo a.byteLength = a := by
  induction a with
  | nil => exact upTo_zero b
  | cons c a ih =>
    rw [List.cons_append, byteLength, upTo_cons _ (Nat.le_add_right _ _),
      Nat.add_sub_cancel_left, ih]

theorem behind_byteLength (a b : Text) : (a ++ b).behind a.byteLength = b := by
  rw [behind, upTo_byteLength, List.drop_left]

section Places
variable {text : Text} {m n : Nat}

/-- A character of the text begins at the offset, or the text ends there. -/
def IsBoundary (text : Text) (n : Nat) : Prop :=
  ∃ front : Text, front <+: text ∧ front.byteLength = n

/-- The line and the column of an offset. -/
def place (text : Text) (n : Nat) : Nat × Nat := (text.lineOf n, text.columnOf n)

/-- A place on a line before, or before on the same line. -/
def Earlier : Nat × Nat → Nat × Nat → Prop := Prod.Lex (· < ·) (· < ·)

theorem isBoundary_byteLength (a b : Text) : (a ++ b).IsBoundary a.byteLength :=
  ⟨a, List.prefix_append a b, rfl⟩

theorem place_byteLength (a b : Text) :
    (a ++ b).place a.byteLength = (a.lineAfter, a.columnAfter) := by
  rw [place, lineOf, columnOf, upTo_byteLength]

/-- What is added to a text ends on a later line, or on the same line in a later column. -/
theorem earlier_append (a : Text) {x : Text} (hx : x ≠ []) :
    Earlier (a.lineAfter, a.columnAfter) ((a ++ x).lineAfter, (a ++ x).columnAfter) := by
  rw [Earlier, Prod.lex_def, lineAfter_append]
  by_cases hn : '\n' ∈ x
  · have hcount := List.count_pos_iff.mpr hn
    exact Or.inl (by simpa using hcount)
  · have hcount := List.count_eq_zero.mpr hn
    have hall : ∀ c ∈ x.reverse, (c != '\n') = true := by
      intro c hc
      rw [List.mem_reverse] at hc
      exact bne_iff_ne.mpr fun he => hn (he ▸ hc)
    have hpos := List.length_pos_iff.mpr hx
    refine Or.inr ⟨by simp [hcount], ?_⟩
    rw [columnAfter, columnAfter, List.reverse_append, List.takeWhile_append_of_pos hall,
      List.length_append, List.length_reverse]
    omega

/-- Places go on with the offsets of characters. -/
theorem earlier_place (hm : text.IsBoundary m) (hn : text.IsBoundary n) (h : m < n) :
    Earlier (text.place m) (text.place n) := by
  obtain ⟨a, ha, rfl⟩ := hm
  obtain ⟨b, hb, rfl⟩ := hn
  have hab : a <+: b := by
    cases List.prefix_or_prefix_of_prefix ha hb with
    | inl hab => exact hab
    | inr hba => exact absurd (byteLength_mono hba) (Nat.not_le.mpr h)
  obtain ⟨x, rfl⟩ := hab
  obtain ⟨r, rfl⟩ := hb
  have hx : x ≠ [] := by
    intro hx
    simp [hx] at h
  have hplace := place_byteLength a (x ++ r)
  rw [← List.append_assoc] at hplace
  rw [hplace, place_byteLength]
  exact earlier_append a hx

/-- So a place determines its offset. -/
theorem place_inj (hm : text.IsBoundary m) (hn : text.IsBoundary n)
    (h : text.place m = text.place n) : m = n := by
  have hirr : ∀ p : Nat × Nat, ¬ Earlier p p := by
    intro p hp
    cases Prod.lex_def.mp hp with
    | inl hlt => exact Nat.lt_irrefl _ hlt
    | inr hlt => exact Nat.lt_irrefl _ hlt.2
  cases Nat.lt_trichotomy m n with
  | inl hlt => exact absurd (h ▸ earlier_place hm hn hlt) (hirr _)
  | inr hge =>
    cases hge with
    | inl he => exact he
    | inr hgt => exact absurd (h ▸ earlier_place hn hm hgt) (hirr _)

end Places
end SourceMarks.Text
