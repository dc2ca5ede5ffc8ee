import SourceMarks.Text.Basic

/-!
The order of texts is a linear order, it is the order of their bytes, and sorting puts texts into
it.
-/
namespace SourceMarks.Text
variable {a b c : Text} {ts : List Text} {r s : List UInt8}

protected theorem le_refl (a : Text) : le a a = true := by
  induction a with
  | nil => rfl
  | cons x a ih => simpa [le] using ih

protected theorem le_trans (hab : le a b = true) (hbc : le b c = true) : le a c = true := by
  induction a generalizing b c with
  | nil => rfl
  | cons x a ih =>
    cases b with
    | nil => cases hab
    | cons y b =>
      cases c with
      | nil => cases hbc
      | cons z c =>
        rw [le] at hab hbc ⊢
        by_cases hxy : x = y
        · subst hxy
          by_cases hxz : x = z
          · simp only [hxz, if_true] at hab hbc ⊢
            exact ih hab hbc
          · simpa [hxz] using hbc
        · by_cases hyz : y = z
          · subst hyz
            simpa [hxy] using hab
          · simp only [hxy, hyz, if_false, decide_eq_true_eq] at hab hbc
            have hxz : x ≠ z := by
              rintro rfl
              omega
            simp only [hxz, if_false, decide_eq_true_eq]
            omega

protected theorem le_antisymm (hab : le a b = true) (hba : le b a = true) : a = b := by
  induction a generalizing b with
  | nil =>
    cases b with
    | nil => rfl
    | cons y b => cases hba
  | cons x a ih =>
    cases b with
    | nil => cases hab
    | cons y b =>
      rw [le] at hab hba
      by_cases hxy : x = y
      · subst hxy
        simp only [if_true] at hab hba
        rw [ih hab hba]
      · simp only [hxy, Ne.symm hxy, if_false, decide_eq_true_eq] at hab hba
        omega

protected theorem le_total (a b : Text) : (le a b || le b a) = true := by
  induction a generalizing b with
  | nil => rfl
  | cons x a ih =>
    cases b with
    | nil => rfl
    | cons y b =>
      rw [le, le]
      by_cases hxy : x = y
      · subst hxy
        simpa using ih b
      · have hne : x.toNat ≠ y.toNat := fun h => hxy (Char.toNat_inj.mp h)
        simp only [hxy, Ne.symm hxy, if_false, Bool.or_eq_true, decide_eq_true_eq]
        omega

/-- One text stands in front of another one in the order of texts. -/
def Precedes (a b : Text) : Prop := le a b = true ∧ a ≠ b

theorem precedes_of_not_le (h : le a b = false) : Precedes b a := by
  have ht := Text.le_total a b
  rw [h, Bool.false_or] at ht
  refine ⟨ht, ?_⟩
  rintro rfl
  rw [ht] at h
  cases h

theorem Precedes.trans (hab : Precedes a b) (hbc : Precedes b c) : Precedes a c := by
  refine ⟨Text.le_trans hab.1 hbc.1, ?_⟩
  rintro rfl
  exact hab.2 (Text.le_antisymm hab.1 hbc.1)

theorem lex_ofNat {m n : Nat} (hn : n < 256) (hle : m ≤ n)
    (h : m = n → List.Lex (· < ·) r s) :
    List.Lex (· < ·) (UInt8.ofNat m :: r) (UInt8.ofNat n :: s) := by
  by_cases he : m = n
  · exact he ▸ .cons (h he)
  · refine .rel ?_
    rw [UInt8.lt_iff_toNat_lt, UInt8.toNat_ofNat', UInt8.toNat_ofNat']
    omega

/-- The first byte in which the forms of two characters differ is the smaller one for the character
with the smaller code. -/
theorem lex_utf8EncodeChar {c d : Char} (h : c.toNat < d.toNat) (r s : List UInt8) :
    List.Lex (· < ·) (String.utf8EncodeChar c ++ r) (String.utf8EncodeChar d ++ s) := by
  have hd : d.toNat < 1114112 := by
    have hv := d.valid
    change d.toNat < 55296 ∨ 57343 < d.toNat ∧ d.toNat < 1114112 at hv
    omega
  change c.val.toNat < d.val.toNat at h
  change d.val.toNat < 1114112 at hd
  unfold String.utf8EncodeChar
  dsimp only
  generalize c.val.toNat = m at h
  generalize d.val.toNat = n at h hd
  by_cases h1 : n ≤ 127
  · rw [if_pos h1, if_pos (by omega)]
    exact lex_ofNat (by omega) (by omega) (by omega)
  rw [if_neg h1]
  by_cases h2 : n ≤ 2047
  · rw [if_pos h2]
    by_cases h1' : m ≤ 127
    · rw [if_pos h1']
      exact lex_ofNat (by omega) (by omega) (by omega)
    · rw [if_neg h1', if_pos (by omega)]
      exact lex_ofNat (by omega) (by omega) fun _ => lex_ofNat (by omega) (by omega) (by omega)
  rw [if_neg h2]
  by_cases h3 : n ≤ 65535
  · rw [if_pos h3]
    split
    · exact lex_ofNat (by omega) (by omega) (by omega)
    split
    · exact lex_ofNat (by omega) (by omega) (by omega)
    · rw [if_pos (by omega)]
      exact lex_ofNat (by omega) (by omega) fun _ => lex_ofNat (by omega) (by omega) fun _ =>
        lex_ofNat (by omega) (by omega) (by omega)
  rw [if_neg h3]
  split
  · exact lex_ofNat (by omega) (by omega) (by omega)
  split
  · exact lex_ofNat (by omega) (by omega) (by omega)
  split
  · exact lex_ofNat (by omega) (by omega) (by omega)
  · exact lex_ofNat (by omega) (by omega) fun _ => lex_ofNat (by omega) (by omega) fun _ =>
      lex_ofNat (by omega) (by omega) fun _ => lex_ofNat (by omega) (by omega) (by omega)

theorem lex_append (t : List UInt8) (h : List.Lex (· < ·) r s) :
    List.Lex (· < ·) (t ++ r) (t ++ s) := by
  induction t with
  | nil => exact h
  | cons x t ih => exact .cons ih

theorem lex_bytes (h : Precedes a b) : List.Lex (· < ·) a.bytes b.bytes := by
  obtain ⟨hle, hne⟩ := h
  induction a generalizing b with
  | nil =>
    obtain ⟨d, b, rfl⟩ := List.exists_cons_of_ne_nil (Ne.symm hne)
    have hpos : 0 < (String.utf8EncodeChar d).length := by
      rw [String.length_utf8EncodeChar]
      exact d.utf8Size_pos
    obtain ⟨x, xs, hx⟩ := List.exists_cons_of_length_pos hpos
    rw [bytes, bytes, List.flatMap_nil, List.flatMap_cons, hx]
    exact .nil
  | cons c a ih =>
    cases b with
    | nil => cases hle
    | cons d b =>
      rw [bytes, bytes, List.flatMap_cons, List.flatMap_cons]
      rw [le] at hle
      by_cases hcd : c = d
      · subst hcd
        rw [if_pos rfl] at hle
        exact lex_append _ (ih hle fun he => hne (he ▸ rfl))
      · rw [if_neg hcd, decide_eq_true_eq] at hle
        exact lex_utf8EncodeChar hle _ _

theorem not_lex_of_lex (h : List.Lex (· < ·) r s) : ¬ List.Lex (· < ·) s r := by
  induction h with
  | nil => exact fun h => nomatch h
  | rel hlt =>
    intro h
    cases h with
    | rel hgt => exact UInt8.lt_asymm hlt hgt
    | cons _ => exact UInt8.lt_irrefl _ hlt
  | cons _ ih =>
    intro h
    cases h with
    | rel hlt => exact UInt8.lt_irrefl _ hlt
    | cons h => exact ih h

/-- The order of texts is the order of their bytes. -/
theorem precedes_iff_lex_bytes : Precedes a b ↔ List.Lex (· < ·) a.bytes b.bytes := by
  refine ⟨lex_bytes, fun h => ?_⟩
  cases hle : le a b with
  | true =>
    refine ⟨hle, ?_⟩
    rintro rfl
    exact not_lex_of_lex h h
  | false => exact absurd (lex_bytes (precedes_of_not_le hle)) (not_lex_of_lex h)

/-- In the order of texts, where one may stand several times. -/
abbrev Sorted (ts : List Text) : Prop := ts.Pairwise fun a b => le a b = true

theorem sort_perm (ts : List Text) : (sort ts).Perm ts := List.mergeSort_perm ts le

theorem sort_of_sorted (hs : Sorted ts) : sort ts = ts := List.mergeSort_of_pairwise hs

theorem sorted_sort (ts : List Text) : Sorted (sort ts) :=
  @List.pairwise_mergeSort Text le (fun _ _ _ => Text.le_trans) Text.le_total ts

theorem Sorted.pairwise_precedes (hs : Sorted ts) (hn : ts.Nodup) : ts.Pairwise Precedes :=
  hs.imp₂ (fun _ _ hle hne => ⟨hle, hne⟩) hn

end SourceMarks.Text
