import SourceMarks.Json.Reader
import SourceMarks.Json.Writer
import SourceMarks.Proofs.Text.Search

/-! What can be read across the characters of a quoted string. -/
namespace SourceMarks.Json
variable {x s : Text}

/-- The characters that are written as a backslash and a letter or themselves. -/
def shortEscapes : Text := ['"', '\\', '\x08', '\t', '\n', '\x0c', '\r']

/-- A character is written as itself, as a backslash and a letter, or as a code. -/
theorem escape_forms (c : Char) :
    (escape c = [c] ∧ c ∉ shortEscapes ∧ ¬ c.toNat < 32) ∨
      (∃ d ∈ ['"', '\\', 'b', 't', 'n', 'f', 'r'],
        escape c = ['\\', d] ∧ escaped? d = some c) ∨
      ∃ m n, m < 16 ∧ n < 16 ∧ escape c = ['\\', 'u', '0', '0', hexDigit m, hexDigit n] ∧
        m * 16 + n = c.toNat := by
  by_cases hs : c ∈ shortEscapes
  · refine Or.inr (Or.inl ?_)
    simp only [shortEscapes, List.mem_cons, List.not_mem_nil, or_false] at hs
    rcases hs with rfl | rfl | rfl | rfl | rfl | rfl | rfl <;> exact ⟨_, by decide, rfl, rfl⟩
  · have hn := hs
    simp only [shortEscapes, List.mem_cons, List.not_mem_nil, or_false, not_or] at hn
    by_cases hc : c.toNat < 32
    · refine Or.inr (Or.inr ⟨c.toNat / 16, c.toNat % 16, by omega, by omega, ?_, by omega⟩)
      simp [escape, hn, hc]
    · exact Or.inl ⟨by simp [escape, hn, hc], hs, hc⟩

theorem ne_hexDigit : ∀ n, n < 16 → '/' ≠ hexDigit n ∧ '\n' ≠ hexDigit n := by decide

/-- A character is written as itself or, with a backslash first, without any slash. -/
theorem escape_cases (c : Char) :
    escape c = [c] ∨ (∃ t, escape c = '\\' :: t) ∧ '/' ∉ escape c := by
  obtain ⟨he, -⟩ | ⟨d, hd, he, -⟩ | ⟨m, n, hm, hn, he, -⟩ := escape_forms c
  · exact Or.inl he
  · refine Or.inr ⟨⟨[d], he⟩, ?_⟩
    rw [he]
    intro hs
    obtain rfl : '/' = d := by simpa using hs
    simp at hd
  · refine Or.inr ⟨⟨_, he⟩, ?_⟩
    simp [he, (ne_hexDigit m hm).1, (ne_hexDigit n hn).1]

theorem prefix_of_prefix_escape (hb : '\\' ∉ x) (h : x <+: s.flatMap escape) : x <+: s := by
  induction s generalizing x with
  | nil => simpa using h
  | cons c s ih =>
    cases x with
    | nil => exact List.nil_prefix
    | cons d x =>
      rw [List.flatMap_cons] at h
      cases escape_cases c with
      | inl hc =>
        rw [hc, List.singleton_append, List.cons_prefix_cons] at h
        have ht := ih (fun hm => hb (List.mem_cons_of_mem d hm)) h.2
        rw [h.1]
        exact (List.prefix_cons_inj c).mpr ht
      | inr hc =>
        obtain ⟨⟨t, ht⟩, -⟩ := hc
        rw [ht, List.cons_append, List.cons_prefix_cons] at h
        exact absurd (by simp [h.1]) hb

theorem infix_of_infix_escape (hb : '\\' ∉ x) (h : '/' :: x <:+: s.flatMap escape) :
    '/' :: x <:+: s := by
  have hb' : '\\' ∉ '/' :: x := by simpa using hb
  induction s with
  | nil => simp at h
  | cons c s ih =>
    rw [List.flatMap_cons] at h
    cases escape_cases c with
    | inl hc =>
      have hw : '/' :: x <:+: c :: s.flatMap escape := by rwa [hc] at h
      cases List.infix_cons_iff.mp hw with
      | inl hp =>
        have hf : (c :: s).flatMap escape = c :: s.flatMap escape := by simp [hc]
        rw [← hf] at hp
        exact (prefix_of_prefix_escape hb' hp).isInfix
      | inr hi => exact List.infix_cons (ih hi)
    | inr hc =>
      have hs : ∀ l, '/' :: l <:+: escape c → False := fun l hl =>
        hc.2 (hl.subset List.mem_cons_self)
      obtain hi | hi | ⟨l, r, hl, -, hx, hsuf, -⟩ := List.infix_append_iff_ne_nil.mp h
      · exact absurd hi (hs x)
      · exact List.infix_cons (ih hi)
      · cases l with
        | nil => exact absurd rfl hl
        | cons d l =>
          obtain ⟨rfl, -⟩ := List.cons.inj hx
          exact absurd hsuf.isInfix (hs l)

theorem newline_not_mem_escape (c : Char) : '\n' ∉ escape c := by
  obtain ⟨he, hs, -⟩ | ⟨d, hd, he, -⟩ | ⟨m, n, hm, hn, he, -⟩ := escape_forms c
  · rw [he]
    intro hc
    obtain rfl : '\n' = c := by simpa using hc
    simp [shortEscapes] at hs
  · rw [he]
    intro hc
    obtain rfl : '\n' = d := by simpa using hc
    simp at hd
  · simp [he, (ne_hexDigit m hm).2, (ne_hexDigit n hn).2]

end SourceMarks.Json
