import SourceMarks.Directive.Payload
import SourceMarks.Proofs.Json.Consumption
import SourceMarks.Proofs.Text.Cut
import SourceMarks.Proofs.Text.Search

/-! How a payload ends from which a directive can be read. -/
namespace SourceMarks.Payload
variable {raw source : Text} {d : Directive} {b c : Char}

theorem isBlank_of_isSpace (h : Json.isSpace c = true) : isBlank c = true := by
  simp only [Json.isSpace, Bool.or_eq_true, decide_eq_true_eq] at h
  rcases h with ((rfl | rfl) | rfl) | rfl <;> decide

/-- A source ends with the closing bracket of its value, up to blanks. -/
theorem closes_of_parse {v : Json} (h : Json.parse source.trim = .ok v) (hv : v.closing = [b])
    (hc : source.getLast? = some c) : c = b ∨ isBlank c = true := by
  by_cases hb : isBlank c = true
  · exact Or.inr hb
  · obtain ⟨w, blanks, ht, -, ⟨x, rfl⟩, hblanks⟩ := Json.exists_of_parse h
    have hl := Text.getLast?_trim hc (by simpa using hb)
    rw [ht, hv, List.getLast?_append] at hl
    cases hlast : blanks.getLast? with
    | none =>
      rw [hlast] at hl
      simp at hl
      exact Or.inl hl.symm
    | some e =>
      rw [hlast] at hl
      obtain rfl : e = c := by simpa using hl
      exact absurd (isBlank_of_isSpace (hblanks e (List.mem_of_getLast? hlast))) hb

/-- The last source of a payload is a list or an object. -/
def IsSource (source : Text) : Prop :=
  ∃ v b, Json.parse source.trim = .ok v ∧ v.closing = [b] ∧ b ∈ [']', '\x7d']

theorem isSource_of_globs {gs : List Text} (h : globs source = .ok gs) : IsSource source := by
  rw [globs] at h
  split at h
  · cases h
  · cases h
  · next items _ hp => exact ⟨.array items, ']', hp, rfl, by simp⟩
  · cases h

theorem isSource_of_options {o : Options} (h : options source = .ok o) : IsSource source := by
  rw [options] at h
  split at h
  · cases h
  · next fs hp => exact ⟨.object fs, '\x7d', hp, rfl, by simp⟩
  · cases h

theorem IsSource.closes (h : IsSource source) (hc : source.getLast? = some c) :
    c ∈ [']', '\x7d'] ∨ isBlank c = true := by
  obtain ⟨v, b, hp, hv, hb⟩ := h
  obtain rfl | hc := closes_of_parse hp hv hc
  · exact Or.inl hb
  · exact Or.inr hc

theorem IsSource.ne_nil (h : IsSource source) : source ≠ [] := by
  intro hn
  obtain ⟨v, b, hp, -, -⟩ := h
  subst hn
  cases hp

theorem suffix_of_cutSources (payload : Text) (first last : Nat) :
    match cutSources payload first last with
    | (source, none) => source <:+ payload
    | (_, some source) => source <:+ payload := by
  by_cases h : last = first
  · simp [cutSources, h, List.drop_suffix]
  · simp [cutSources, h, List.drop_suffix]

theorem exists_isSource (h : parse raw = .ok d) :
    ∃ source, source <:+ normalizeQuotes raw ∧ IsSource source := by
  unfold parse at h
  dsimp only at h
  split at h
  · next first last _ _ =>
    have hs := suffix_of_cutSources (normalizeQuotes raw) first last
    generalize cutSources (normalizeQuotes raw) first last = sources at h hs
    obtain ⟨globsSource, optionsSource⟩ := sources
    split at h
    · cases h
    · obtain ⟨gs, hg, h⟩ := bind_eq_ok_iff.mp h
      cases optionsSource with
      | none => exact ⟨globsSource, hs, isSource_of_globs (mapError_eq_ok_iff.mp hg)⟩
      | some source =>
        obtain ⟨o, ho, -⟩ := bind_eq_ok_iff.mp h
        exact ⟨source, hs, isSource_of_options (mapError_eq_ok_iff.mp ho)⟩
  · cases h

/-- A payload ends with a closing bracket, up to blanks. -/
theorem closes_of_ok (h : parse raw = .ok d) (hc : raw.getLast? = some c) :
    c ∈ [']', '\x7d'] ∨ isBlank c = true := by
  obtain ⟨source, hs, hsource⟩ := exists_isSource h
  have hl : source.getLast? = some (if c = '\'' then '"' else c) := by
    rw [Text.getLast?_of_suffix hsource.ne_nil hs, normalizeQuotes, List.getLast?_map, hc]
    rfl
  have hq := hsource.closes hl
  split at hq
  · exact absurd hq (by decide)
  · exact hq

end SourceMarks.Payload
