import SourceMarks.Proofs.Directive.Scanner
import SourceMarks.Proofs.Text.Position

/-!
Separating commas beside a JSON text. Main statement: a JSON text that stands outside of all
brackets and strings has no separating comma, and those of the texts around it are the same as
without it.
-/
namespace SourceMarks.Payload
variable {s : Scanner} {a b w : Text} {offset k : Nat}

/-- The byte offsets of the separating commas. -/
def commaOffsets (t : Text) : List Nat :=
  (structuralCommas t).map fun k => Text.byteLength (t.take k)

theorem commasFrom_add (s : Scanner) (offset n : Nat) (t : Text) :
    commasFrom s (offset + n) t = (commasFrom s offset t).map (· + n) := by
  induction t generalizing s offset with
  | nil => rfl
  | cons c t ih =>
    have hnext : offset + n + 1 = offset + 1 + n := Nat.add_right_comm offset n 1
    rw [commasFrom, commasFrom, hnext, ih]
    split <;> rfl

theorem lt_length_of_mem (h : k ∈ structuralCommas a) : k < a.length := by
  obtain ⟨front, back, rfl, hk⟩ := exists_of_mem_commasFrom h
  rw [hk, List.length_append, List.length_cons]
  omega

/-- Outside of brackets and strings nothing is remembered. -/
theorem eq_initial_of_outside (h : s.Sound) (hd : s.depth = 0) (hs : s.inString = false) :
    s = .initial :=
  eq_initial_of_separates (c := ',') h (by simp [Scanner.separates, hd, hs])

section Around
variable (ha : a.foldl Scanner.step .initial = .initial)
  (hw : Passes .initial w .initial) (b : Text)
include ha hw

theorem structuralCommas_around : structuralCommas (a ++ w ++ b) =
    structuralCommas a ++ (structuralCommas b).map (· + (a ++ w).length) := by
  have hb :
      commasFrom .initial (a ++ w).length b = (structuralCommas b).map (· + (a ++ w).length) := by
    rw [structuralCommas, ← commasFrom_add, Nat.zero_add]
  rw [structuralCommas, List.append_assoc, commasFrom_append, ha, Nat.zero_add, hw.commasFrom,
    ← List.length_append, hb]
  rfl

theorem commaOffsets_around : commaOffsets (a ++ w ++ b) =
    commaOffsets a ++ (commaOffsets b).map (· + (a ++ w).byteLength) := by
  rw [commaOffsets, structuralCommas_around ha hw, List.map_append]
  refine congrArg₂ (· ++ ·) (List.map_congr_left fun k hk => ?_) ?_
  · rw [List.append_assoc, List.take_append_of_le_length (Nat.le_of_lt (lt_length_of_mem hk))]
  · rw [commaOffsets, List.map_map, List.map_map]
    refine List.map_congr_left fun k _ => ?_
    simp only [Function.comp_apply]
    rw [Nat.add_comm k, List.take_length_add_append, Text.byteLength_append, Nat.add_comm]

end Around

/-- Outside of brackets and strings the scanner passes over every JSON text, and is outside again
behind it. So the separating commas of the texts around it stay where they were, apart from the
length of what is put in front of them. -/
theorem commas_beside_json {t : Text} {v : Json} (h : Json.parse t = .ok v) :
    structuralCommas t = [] ∧ t.foldl Scanner.step .initial = .initial ∧
    ∀ front back : Text, (front.foldl Scanner.step .initial).depth = 0 →
      (front.foldl Scanner.step .initial).inString = false →
      structuralCommas (front ++ t ++ back) =
          structuralCommas front ++ (structuralCommas back).map (· + (front ++ t).length) ∧
        commaOffsets (front ++ t ++ back) =
          commaOffsets front ++ (commaOffsets back).map (· + (front ++ t).byteLength) := by
  have ht : Passes .initial t .initial := passes_balanced_initial (Json.balanced_of_parse h)
  refine ⟨ht.quiet 0, ht.run, fun front back hd hs => ?_⟩
  have hfront := eq_initial_of_outside (sound_foldl sound_initial front) hd hs
  exact ⟨structuralCommas_around hfront ht back, commaOffsets_around hfront ht back⟩

/-- A list with a bracket, a comma and a quote in a string, between a label of two bytes and
options. -/
def listBetween : Text := "[\"],\\\"\",\x7b\"k\":[1,2]\x7d]"

theorem parse_listBetween : Json.parse listBetween =
    .ok (.array [.string "],\"", .object [(['k'], .array [.ofNat 1, .ofNat 2])]]) := by
  rfl

theorem commas_beside_json_list :
    let front : Text := ['é', ',']
    let back : Text := [',', '\x7b', '\x7d']
    (∃ v, Json.parse listBetween = .ok v) ∧ front.foldl Scanner.step .initial = .initial ∧
      structuralCommas listBetween = [] ∧
        commaOffsets (front ++ listBetween ++ back) = [2, 23] := by
  intro front back
  have h := commas_beside_json parse_listBetween
  have hshift :
      commaOffsets front ++ (commaOffsets back).map (· + (front ++ listBetween).byteLength) =
      [2, 23] := by decide
  refine ⟨⟨_, parse_listBetween⟩, by decide, h.1, ?_⟩
  rw [(h.2.2 front back (by decide) (by decide)).2, hshift]

end SourceMarks.Payload
