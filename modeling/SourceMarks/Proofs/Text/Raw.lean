import SourceMarks.Proofs.Text.Bytes
import SourceMarks.Text.Raw

/-! What is shown of texts in bytes: the text itself if they encode one, and a separator for nothing
else. -/
namespace SourceMarks.RawText
variable {r : RawText} {t : Text} {c : Char}

theorem toByteArray_bytes (t : Text) : (Text.bytes t).toByteArray = t.utf8Encode := rfl

@[simp] theorem toText?_bytes (t : Text) : toText? t.bytes = some t := by
  rw [toText?, Text.decode?, toByteArray_bytes, List.utf8Decode?_utf8Encode]
  rfl

/-- Bytes that encode a text are those of the text. -/
theorem toText?_eq_some_iff : r.toText? = some t ↔ r = t.bytes := by
  constructor
  · intro h
    obtain ⟨a, ha, rfl⟩ := Option.map_eq_some_iff.mp h
    have he : (r.toByteArray.utf8Decode?.get (Option.isSome_of_eq_some ha)).toList.utf8Encode =
        r.toByteArray := ByteArray.utf8Encode_get_utf8Decode?
    rw [Option.get_of_eq_some _ ha] at he
    have hd := congrArg ByteArray.data he
    rw [List.data_toByteArray, List.utf8Encode, List.data_toByteArray] at hd
    exact (Array.mk.inj hd).symm
  · rintro rfl
    exact toText?_bytes t

@[simp] theorem shown_bytes (t : Text) : shown t.bytes = t := by simp [shown]

theorem shown_map_bytes (ts : List Text) : (ts.map Text.bytes).map shown = ts := by
  simp [List.map_map, Function.comp_def]

/-- Names that all encode texts are the bytes of these. -/
theorem exists_texts {names : List RawText} (h : ∀ n ∈ names, n.toText?.isSome) :
    ∃ ts : List Text, names = ts.map Text.bytes := by
  induction names with
  | nil => exact ⟨[], rfl⟩
  | cons n names ih =>
    rw [List.forall_mem_cons] at h
    obtain ⟨t, ht⟩ := Option.isSome_iff_exists.mp h.1
    obtain ⟨ts, rfl⟩ := ih h.2
    exact ⟨t :: ts, by rw [toText?_eq_some_iff.mp ht, List.map_cons]⟩

theorem slash_not_mem_mended (h : 47 ∉ r) (skip : Nat) : '/' ∉ mended skip r := by
  induction r generalizing skip with
  | nil => cases skip <;> simp [mended]
  | cons b r ih =>
    have hr : 47 ∉ r := fun hm => h (List.mem_cons_of_mem b hm)
    cases skip with
    | succ skip => exact ih hr skip
    | zero =>
      rw [mended]
      split
      · next c hc =>
        rw [List.mem_cons, not_or]
        refine ⟨?_, ih hr _⟩
        rintro rfl
        -- The bytes would begin with that of the separator.
        have he :=
          congrArg (fun b : ByteArray => b.data.toList) (ByteArray.eq_of_utf8DecodeChar?_eq_some hc)
        rw [ByteArray.data_append, Array.toList_append, List.data_toByteArray,
          List.data_toByteArray] at he
        exact h ((List.cons.inj he).1 ▸ List.mem_cons_self)
      · rw [List.mem_cons, not_or]
        exact ⟨by decide, ih hr _⟩

theorem slash_not_mem_shown (h : 47 ∉ r) : '/' ∉ shown r := by
  cases hr : r.toText? with
  | none =>
    rw [shown, hr]
    exact slash_not_mem_mended h 0
  | some t =>
    rw [toText?_eq_some_iff] at hr
    rw [hr, shown_bytes]
    exact mt Text.slash_mem_bytes.mpr (hr ▸ h)

theorem shown_ne_nil (h : r ≠ []) : shown r ≠ [] := by
  cases hr : r.toText? with
  | none =>
    obtain ⟨b, r, rfl⟩ := List.exists_cons_of_ne_nil h
    rw [shown, hr, Option.getD_none, mended]
    split <;> exact List.cons_ne_nil _ _
  | some t =>
    rw [toText?_eq_some_iff] at hr
    rw [hr, shown_bytes]
    rintro rfl
    exact h hr

end SourceMarks.RawText
