import SourceMarks.Expansion
import SourceMarks.Proofs.Json.Consumption
import SourceMarks.Proofs.Json.Spelling

/-!
The text that stands for files, read as JSON. Main statement: between brackets it is an array of
exactly these files, so it tells lists of files apart, and no name reaches beyond its quotes.
-/
namespace SourceMarks
open Json

/-- A quoted text is read back whatever follows, also if it holds quotes, commas or line breaks. -/
theorem Json.reads_quote {depth : Nat} (s : Text) :
    Reads (value (depth + 1)) (quote s) (.string s) :=
  reads_string spells_escape s

/-- Inside the quotes each quote and each backslash stands behind a backslash. -/
theorem Json.inside_escape (s : Text) : Inside (s.flatMap escape) := by
  have hread : stringBody (s.flatMap escape ++ ['"']) = .ok (s, []) :=
    stringBody_flatMap spells_escape s []
  obtain ⟨w, hw, inner, rfl, hinner⟩ := takes_stringBody _ _ _ hread
  rw [List.append_nil] at hw
  rwa [List.append_cancel_right hw]

namespace Expansion
variable {files others : List Text}

theorem renderFiles_of_ne_nil (h : files ≠ []) :
    renderFiles files = Text.join [',', '\n'] (files.map quote) := by
  simp [renderFiles, h]

theorem parse_renderFiles (h : files ≠ []) :
    parse ('[' :: (renderFiles files ++ [']'])) = .ok (.array (files.map .string)) := by
  have hitems : List.Forall₂ (Reads (value 127)) (files.map quote) (files.map .string) := by
    rw [List.forall₂_map_left_iff, List.forall₂_map_right_iff, List.forall₂_same]
    exact fun s _ => reads_quote s
  have hbreak : ∀ c ∈ ['\n'], isSpace c = true := by simp [isSpace]
  rw [renderFiles_of_ne_nil h]
  exact parse_of_reads (reads_array hitems hbreak)

theorem renderFiles_inj (hf : files ≠ []) (ho : others ≠ [])
    (h : renderFiles files = renderFiles others) :
    files = others := by
  have hparse := parse_renderFiles hf
  rw [h, parse_renderFiles ho] at hparse
  have hmap : others.map Json.string = files.map .string := Json.array.inj (Except.ok.inj hparse)
  have hstring : Function.Injective Json.string := fun _ _ => Json.string.inj
  exact (hstring.list_map hmap).symm

/-- Files between brackets are read back as an array of exactly these, in order. So lists with at
least one file have different texts, and each name keeps to its quotes, with a comma and a line
break between neighbours. -/
theorem renderFiles_exact :
    (∀ files, files ≠ [] →
      parse ('[' :: (renderFiles files ++ [']'])) = .ok (.array (files.map .string))) ∧
    (∀ files others, files ≠ [] → others ≠ [] → renderFiles files = renderFiles others →
      files = others) ∧
    ∀ files, files ≠ [] → ∃ bodies : List Text,
      bodies.length = files.length ∧ (∀ s ∈ bodies, Inside s) ∧
      renderFiles files = Text.join [',', '\n'] (bodies.map fun s => '"' :: (s ++ ['"'])) := by
  refine ⟨fun files h => parse_renderFiles h, fun files others => renderFiles_inj,
    fun files h => ?_⟩
  refine ⟨files.map fun s => s.flatMap escape, List.length_map _, fun s hs => ?_, ?_⟩
  · obtain ⟨file, -, rfl⟩ := List.mem_map.mp hs
    exact inside_escape file
  · rw [renderFiles_of_ne_nil h, List.map_map]
    rfl

/-- A name that closes its quotes and adds an item, and one with a backslash at its end. -/
theorem renderFiles_exact_hostile :
    let files : List Text := [['a', '"', ',', '\n', '"', 'b'], ['\\'], []]
    files ≠ [] ∧ parse ('[' :: (renderFiles files ++ [']'])) = .ok (.array (files.map .string)) ∧
    renderFiles files = "\"a\\\",\\n\\\"b\",\n\"\\\\\",\n\"\"".toList := by
  intro files
  have hne : files ≠ [] := by decide
  exact ⟨hne, renderFiles_exact.1 files hne, by decide⟩

end Expansion
end SourceMarks
