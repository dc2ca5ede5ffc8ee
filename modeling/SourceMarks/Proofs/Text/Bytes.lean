import Mathlib.Data.List.Count
import SourceMarks.Proofs.Text.Order
import SourceMarks.Proofs.Text.Search

/-!
The bytes of a text. The byte of a separator stands for nothing else, so the bytes can be cut there
where the text can.
-/
namespace SourceMarks.Text
variable {c : Char} {a b t : Text} {u v : List UInt8}

theorem bytes_cons (c : Char) (t : Text) : bytes (c :: t) = String.utf8EncodeChar c ++ bytes t :=
  List.flatMap_cons

theorem bytes_append (a b : Text) : (a ++ b).bytes = a.bytes ++ b.bytes := List.flatMap_append

theorem bytes_inj (h : a.bytes = b.bytes) : a = b := by
  have hirrefl : ∀ {r : List UInt8}, ¬ List.Lex (· < ·) r r := fun hr => not_lex_of_lex hr hr
  by_contra hne
  cases hle : le a b with
  | true => exact hirrefl (h ▸ lex_bytes ⟨hle, hne⟩)
  | false => exact hirrefl (h ▸ lex_bytes (precedes_of_not_le hle))

/-- A character of several bytes has none of a single one. -/
theorem slash_not_mem_utf8EncodeChar (hc : c ≠ '/') : 47 ∉ String.utf8EncodeChar c := by
  have hn : c.val.toNat ≠ 47 := fun h => hc (Char.toNat_inj.mp h)
  have hd : c.val.toNat < 1114112 := by
    have hv := c.valid
    change c.val.toNat < 55296 ∨ 57343 < c.val.toNat ∧ c.val.toNat < 1114112 at hv
    omega
  have hbyte : ∀ {m : Nat}, m % 256 ≠ 47 → (47 : UInt8) ≠ UInt8.ofNat m := by
    intro m hm he
    rw [← UInt8.toNat_inj, UInt8.toNat_ofNat'] at he
    exact hm he.symm
  unfold String.utf8EncodeChar
  dsimp only
  generalize c.val.toNat = n at hn hd
  split
  · simp only [List.mem_cons, List.not_mem_nil, or_false]
    exact hbyte (by omega)
  split
  · simp only [List.mem_cons, List.not_mem_nil, or_false, not_or]
    exact ⟨hbyte (by omega), hbyte (by omega)⟩
  split
  · simp only [List.mem_cons, List.not_mem_nil, or_false, not_or]
    exact ⟨hbyte (by omega), hbyte (by omega), hbyte (by omega)⟩
  · simp only [List.mem_cons, List.not_mem_nil, or_false, not_or]
    exact ⟨hbyte (by omega), hbyte (by omega), hbyte (by omega), hbyte (by omega)⟩

theorem count_utf8EncodeChar (c : Char) :
    (String.utf8EncodeChar c).count 47 = if c = '/' then 1 else 0 := by
  split
  · next hc =>
    subst hc
    rfl
  · next hc => exact List.count_eq_zero.mpr (slash_not_mem_utf8EncodeChar hc)

theorem count_bytes (t : Text) : t.bytes.count 47 = t.count '/' := by
  induction t with
  | nil => rfl
  | cons c t ih =>
    rw [bytes_cons, List.count_append, count_utf8EncodeChar, ih, List.count_cons]
    simp only [beq_iff_eq]
    omega

theorem slash_mem_bytes : 47 ∈ t.bytes ↔ '/' ∈ t := by
  rw [← List.count_pos_iff, ← List.count_pos_iff, count_bytes]

/-- The bytes around one of a separator are those of the texts around the separator. -/
theorem exists_of_bytes_slash (h : t.bytes = u ++ 47 :: v) :
    ∃ x y, t = x ++ '/' :: y ∧ u = bytes x ∧ v = bytes y := by
  induction t generalizing u with
  | nil => simp [bytes] at h
  | cons c t ih =>
    rw [bytes_cons] at h
    by_cases hc : c = '/'
    · subst hc
      change 47 :: bytes t = u ++ 47 :: v at h
      cases u with
      | nil =>
        cases h
        exact ⟨[], t, rfl, rfl, rfl⟩
      | cons b u =>
        rw [List.cons_append, List.cons.injEq] at h
        obtain ⟨rfl, h⟩ := h
        obtain ⟨x, y, rfl, rfl, rfl⟩ := ih h
        exact ⟨'/' :: x, y, rfl, rfl, rfl⟩
    · -- The separator does not lie in this character.
      have hu : String.utf8EncodeChar c <+: u :=
        prefix_of_head_not_mem (by simpa using slash_not_mem_utf8EncodeChar hc) ⟨_, h⟩
      obtain ⟨w, rfl⟩ := hu
      rw [List.append_assoc, List.append_cancel_left_eq] at h
      obtain ⟨x, y, rfl, rfl, rfl⟩ := ih h
      exact ⟨c :: x, y, rfl, (bytes_cons c x).symm, rfl⟩

end SourceMarks.Text
