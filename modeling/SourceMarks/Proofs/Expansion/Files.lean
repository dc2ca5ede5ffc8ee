import SourceMarks.Expansion
import SourceMarks.Proofs.Json.Quote
import SourceMarks.Proofs.Marker.Pieces

/-! The text that stands for files: it begins and ends with a quote, and nothing can be read across
its items. -/
namespace SourceMarks.Expansion
variable {x : Text}

theorem quoted_quote (s : Text) : Text.Quoted (Json.quote s) := by
  constructor
  · simp [Json.quote]
  · rw [Json.quote, ← List.cons_append, List.getLast?_concat]

theorem quoted_join (file : Text) (files : List Text) :
    Text.Quoted (Text.join [',', '\n'] ((file :: files).map Json.quote)) := by
  induction files generalizing file with
  | nil => exact quoted_quote file
  | cons next files ih => exact (quoted_quote file).append (ih next) [',', '\n']

theorem quoted_renderFiles (files : List Text) : Text.Quoted (renderFiles files) := by
  cases files with
  | nil => exact ⟨rfl, rfl⟩
  | cons file files => exact quoted_join file files

/-- A word that has no quote is not read across the quotes of a string. -/
theorem infix_of_infix_quote {s : Text} (hq : '"' ∉ x) (h : '/' :: x <:+: Json.quote s) :
    '/' :: x <:+: s.flatMap Json.escape := by
  have hn : '"' ∉ '/' :: x := by simpa using hq
  cases List.infix_cons_iff.mp h with
  | inl hp => simp at hp
  | inr hi =>
    cases Text.infix_of_head_not_mem (by simpa using hq) hi with
    | inl hs => exact hs
    | inr he => exact absurd (he.subset List.mem_cons_self) (by simp)

theorem infix_of_infix_join {file : Text} {files : List Text} (hc : ',' ∉ x)
    (h : '/' :: x <:+: Text.join [',', '\n'] ((file :: files).map Json.quote)) :
    ∃ f ∈ file :: files, '/' :: x <:+: Json.quote f := by
  induction files generalizing file with
  | nil => exact ⟨file, List.mem_cons_self, h⟩
  | cons next files ih =>
    have hs : '/' :: x <:+: Json.quote file ++ ',' :: '\n' ::
        Text.join [',', '\n'] ((next :: files).map Json.quote) := by
      simpa [Text.join] using h
    cases Text.infix_of_head_not_mem (by simpa using hc) hs with
    | inl hf => exact ⟨file, List.mem_cons_self, hf⟩
    | inr hr =>
      simp only [List.infix_cons_iff, List.cons_prefix_cons] at hr
      have ht : '/' :: x <:+: Text.join [',', '\n'] ((next :: files).map Json.quote) := by
        simpa using hr
      obtain ⟨f, hf, hx⟩ := ih ht
      exact ⟨f, List.mem_cons_of_mem file hf, hx⟩

theorem infix_of_infix_renderFiles {files : List Text} (hq : '"' ∉ x) (hc : ',' ∉ x)
    (h : '/' :: x <:+: renderFiles files) :
    ∃ f ∈ files, '/' :: x <:+: f.flatMap Json.escape := by
  cases files with
  | nil => exact absurd (h.subset List.mem_cons_self) (by simp [renderFiles])
  | cons file files =>
    obtain ⟨f, hf, hx⟩ := infix_of_infix_join hc h
    exact ⟨f, hf, infix_of_infix_quote hq hx⟩

/-- A word over two lines is not read at all: names are escaped, and a line break between items
follows a comma. -/
theorem not_infix_renderFiles {files : List Text} (hq : '"' ∉ x) (hc : ',' ∉ x) (hn : '\n' ∈ x) :
    ¬ '/' :: x <:+: renderFiles files := by
  intro h
  obtain ⟨f, -, hf⟩ := infix_of_infix_renderFiles hq hc h
  obtain ⟨c, -, hc⟩ := List.mem_flatMap.mp (hf.subset (List.mem_cons_of_mem '/' hn))
  exact Json.newline_not_mem_escape c hc

theorem clear_renderFiles (files : List Text) : Marker.noCache.Clear (renderFiles files) [] := by
  intro y _ hy
  rw [List.append_nil, Marker.form?, ← Option.not_isSome_iff_eq_none,
    Marker.isSome_noCacheForm?_iff]
  intro h
  cases h with
  | inl h =>
    exact not_infix_renderFiles (by decide) (by decide) (by decide) (h.isInfix.trans hy.isInfix)
  | inr h =>
    exact not_infix_renderFiles (by decide) (by decide) (by decide) (h.isInfix.trans hy.isInfix)

end SourceMarks.Expansion
