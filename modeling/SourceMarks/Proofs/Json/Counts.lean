import SourceMarks.Json.Shape
import SourceMarks.Proofs.Json.Spelling

/-!
Natural numbers in decimal digits. A number below `2 ^ 64` is read back from its digits, up to a
text that no number goes on with.
-/
namespace SourceMarks
open Json
variable {n : Nat} {rest : Text}

theorem Text.isDigit_of_mem_ofNat {c : Char} (h : c ∈ Text.ofNat n) : c.isDigit = true :=
  Nat.isDigit_of_mem_toDigits (by decide) (by decide) h

theorem Text.ofNat_of_lt (h : n < 10) : Text.ofNat n = [n.digitChar] := Nat.toDigits_of_lt_base h

theorem Text.exists_digit_cons (n : Nat) : ∃ c t, Text.ofNat n = c :: t ∧ c.isDigit = true := by
  cases ht : Text.ofNat n with
  | nil => exact absurd ht Nat.toDigits_ne_nil
  | cons c t => exact ⟨c, t, rfl, Text.isDigit_of_mem_ofNat (ht ▸ List.mem_cons_self)⟩

/-- The last digit of a number behind the digits of the others. -/
theorem Text.ofNat_of_le (h : 10 ≤ n) :
    Text.ofNat n = Text.ofNat (n / 10) ++ [(n % 10).digitChar] :=
  Nat.toDigits_of_base_le (by decide) h

/-- No number but zero begins with the digit of zero. -/
theorem Text.exists_ofNat_eq_cons (h : n ≠ 0) : ∃ c t, Text.ofNat n = c :: t ∧ c ≠ '0' := by
  induction n using Nat.strongRecOn with
  | ind n ih =>
    by_cases hn : n < 10
    · exact ⟨_, [], Text.ofNat_of_lt hn, mt Nat.digitChar_eq_zero.mp h⟩
    · obtain ⟨c, t, ht, hc⟩ := ih (n / 10) (by omega) (by omega)
      exact ⟨c, t ++ [(n % 10).digitChar], by rw [Text.ofNat_of_le (by omega), ht]; rfl, hc⟩

namespace Json

theorem fitting_concat {before m : Nat} {run : Text} {c : Char} (h : fitting before run = (m, 0))
    (hm : m * 10 + (c.toNat - 48) < Nat.pow 2 64) :
    fitting before (run ++ [c]) = (m * 10 + (c.toNat - 48), 0) := by
  induction run generalizing before with
  | nil =>
    cases h
    simp only [List.nil_append, fitting, if_pos hm]
  | cons d run ih =>
    rw [fitting] at h
    split at h
    · next hd =>
      rw [List.cons_append, fitting, if_pos hd]
      exact ih h
    · cases h

theorem fitting_ofNat (h : n < Nat.pow 2 64) : fitting 0 (Text.ofNat n) = (n, 0) := by
  induction n using Nat.strongRecOn with
  | ind n ih =>
    have hdigit : (n % 10).digitChar.toNat - 48 = n % 10 :=
      Nat.toNat_digitChar_sub_48_of_lt_ten (Nat.mod_lt n (by decide))
    have hvalue : n / 10 * 10 + ((n % 10).digitChar.toNat - 48) = n := by omega
    by_cases hn : n < 10
    · rw [Text.ofNat_of_lt hn]
      rw [Nat.mod_eq_of_lt hn] at hdigit
      simp only [fitting, hdigit, Nat.zero_mul, Nat.zero_add, if_pos h]
    · have hfront := ih (n / 10) (by omega) (Nat.lt_of_le_of_lt (Nat.div_le_self n 10) h)
      rw [Text.ofNat_of_le (by omega), fitting_concat hfront (by rwa [hvalue]), hvalue]

theorem Apart.head?_isDigit (h : Apart rest) : ∀ c ∈ rest.head?, c.isDigit = false := by
  intro c hc
  have he := h c hc
  simp only [endsNumber, Bool.and_eq_true, Bool.not_eq_true'] at he
  exact he.1

theorem digitRun_ofNat (hr : Apart rest) :
    digitRun (Text.ofNat n ++ rest) = (Text.ofNat n, rest) := by
  have hd : ∀ c ∈ Text.ofNat n, c.isDigit = true := fun _ => Text.isDigit_of_mem_ofNat
  rw [digitRun, List.takeWhile_append_of_pos hd, List.dropWhile_append_of_pos hd]
  cases rest with
  | nil => simp
  | cons c rest => simp [hr.head?_isDigit c rfl]

/-- The run of digits at the beginning of a number is all of it, also if it is zero. -/
theorem numberBody_run (hr : Apart rest) {c : Char} {t : Text} (ht : Text.ofNat n = c :: t) :
    (if c = '0' then (['0'], t ++ rest) else digitRun (c :: t ++ rest)) = (Text.ofNat n, rest) := by
  by_cases hz : n = 0
  · subst hz
    cases ht
    rfl
  · obtain ⟨d, u, hu, hd⟩ := Text.exists_ofNat_eq_cons hz
    obtain ⟨rfl, rfl⟩ := List.cons.inj (ht.symm.trans hu)
    rw [if_neg hd, ← ht, digitRun_ofNat hr]

/-- Neither a fraction nor an exponent nor another digit is read behind the digits. -/
theorem numberBody_ofNat (h : n < Nat.pow 2 64) (hr : Apart rest) :
    numberBody false (Text.ofNat n ++ rest) = .ok (.natural n, rest) := by
  obtain ⟨c, t, ht, hc⟩ := Text.exists_digit_cons n
  have hrun := numberBody_run hr ht
  rw [ht]
  rw [List.cons_append] at hrun ⊢
  simp only [numberBody, hc, hrun, fitting_ofNat h]
  cases rest with
  | nil => simp
  | cons d rest =>
    have hd := hr d rfl
    simp only [endsNumber, Bool.and_eq_true, Bool.not_eq_true', decide_eq_true_eq, List.mem_cons,
      List.not_mem_nil, or_false, not_or] at hd
    simp [hd]

theorem isSpace_of_isDigit {c : Char} (h : c.isDigit = true) : isSpace c = false := by
  by_contra hs
  have he := endsNumber_of_isSpace (Bool.not_eq_false _ ▸ hs)
  simp [endsNumber, h] at he

theorem ne_of_isDigit {c d : Char} (h : c.isDigit = true) (hd : d.isDigit = false) : c ≠ d := by
  rintro rfl
  rw [h] at hd
  cases hd

theorem readCount_ofNat (h : n < Nat.pow 2 64) (hr : Apart rest) :
    readCount (Text.ofNat n ++ rest) = .ok (ofNat n, rest) := by
  obtain ⟨c, t, ht, hc⟩ := Text.exists_digit_cons n
  have hn := numberBody_ofNat h hr
  rw [ht, List.cons_append] at hn ⊢
  rw [readCount, skip_cons (isSpace_of_isDigit hc)]
  have hm : c ≠ '-' := ne_of_isDigit hc rfl
  simp [hc, hn, hm, countOf, bind, Except.bind]

end Json
end SourceMarks
