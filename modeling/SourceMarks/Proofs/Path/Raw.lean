import SourceMarks.Proofs.Path.Parts
import SourceMarks.Proofs.Text.Raw

/-! Paths in bytes: those of a joined path are the bytes of its parts, joined. -/
namespace SourceMarks
open PathSymbol
variable {c : Char} {t : Text} {p q : Path} {parts : List Text} {names : List RawText}

namespace Text

theorem bytes_eq_nil : t.bytes = [] ↔ t = [] := by
  constructor
  · exact fun h => bytes_inj (b := []) h
  · rintro rfl
    rfl

/-- The first byte is a separator where the first character is one, and the same holds at the
end. -/
theorem ends_utf8EncodeChar (c : Char) :
    ((String.utf8EncodeChar c).head? = some slash ↔ c = '/') ∧
      ((String.utf8EncodeChar c).getLast? = some slash ↔ c = '/') := by
  by_cases hc : c = '/'
  · subst hc
    decide
  · have hn := slash_not_mem_utf8EncodeChar hc
    exact ⟨iff_of_false (fun h => hn (List.mem_of_head? h)) hc,
      iff_of_false (fun h => hn (List.mem_of_getLast? h)) hc⟩

theorem head?_bytes : t.bytes.head? = some slash ↔ t.head? = some '/' := by
  cases t with
  | nil => simp [bytes]
  | cons c t =>
    obtain ⟨b, bs, hb⟩ : ∃ b bs, String.utf8EncodeChar c = b :: bs :=
      List.exists_cons_of_ne_nil (by simp)
    have hc := (ends_utf8EncodeChar c).1
    rw [bytes_cons, List.head?_cons, Option.some_inj, ← hc, hb]
    rfl

theorem getLast?_bytes : t.bytes.getLast? = some slash ↔ t.getLast? = some '/' := by
  cases t using List.reverseRecOn with
  | nil => simp [bytes]
  | append_singleton t c =>
    have hc : bytes [c] = String.utf8EncodeChar c := by simp [bytes]
    rw [bytes_append, hc, List.getLast?_concat, Option.some_inj, List.getLast?_append,
      Option.or_of_isSome (by simp)]
    exact (ends_utf8EncodeChar c).2

theorem bytes_join (parts : List Text) :
    (join ['/'] parts).bytes = join [slash] (parts.map bytes) := by
  induction parts with
  | nil => rfl
  | cons t parts ih =>
    by_cases hn : parts = []
    · subst hn
      rfl
    · rw [join_next '/' t hn, bytes_append, bytes_cons, ih, List.map_cons,
        join_next slash t.bytes (by simpa using hn)]
      rfl

end Text

namespace Path

theorem isAbsolute_raw (p : Path) : p.raw.isAbsolute = p.isAbsolute :=
  decide_eq_decide.mpr Text.head?_bytes

theorem bytes_opened (t : Text) : (opened t).bytes = opened t.bytes := by
  have h : t.bytes = [] ∨ t.bytes.getLast? = some slash ↔
      t = [] ∨ t.getLast? = some slash :=
    or_congr Text.bytes_eq_nil Text.getLast?_bytes
  by_cases ht : t = [] ∨ t.getLast? = some slash
  · rw [opened, opened, if_pos ht, if_pos (h.mpr ht)]
  · rw [opened, opened, if_neg ht, if_neg (mt h.mp ht), Text.bytes_append]
    rfl

theorem raw_join (p q : Path) : (p.join q).raw = p.raw.join q.raw := by
  cases hq : q.isAbsolute with
  | true => rw [join_of_absolute hq, join_of_absolute ((isAbsolute_raw q).trans hq)]
  | false =>
    rw [join_of_relative hq, join_of_relative ((isAbsolute_raw q).trans hq), raw, Text.bytes_append,
      bytes_opened]
    rfl

theorem raw_ofParts (parts : List Text) : (ofParts parts).raw = ofParts (parts.map Text.bytes) :=
  congrArg mk (Text.bytes_join parts)

end Path
end SourceMarks
