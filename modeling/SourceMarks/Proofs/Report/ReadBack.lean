import SourceMarks.Directive.Basic
import SourceMarks.Proofs.Json.Shaped
import SourceMarks.Proofs.Text.Raw
import SourceMarks.Report.Render

/-!
Reports of checks, and directives, read back from their JSON forms. Main statement: what is read
back is what was written, compact or with one field per line.
-/
namespace SourceMarks
open Json

/-- The line and the column fit into 64 bits. -/
structure Location.InRange (l : Location) : Prop where
  line : l.line < Nat.pow 2 64
  column : ∀ c ∈ l.column, c < Nat.pow 2 64

/-- The counts of a result, and the places of its issues, fit into 64 bits, and a text names the
file of each issue. -/
structure CheckResult.InRange (r : CheckResult) : Prop where
  filesChecked : r.filesChecked < Nat.pow 2 64
  annotationsChecked : r.annotationsChecked < Nat.pow 2 64
  errors : r.errors < Nat.pow 2 64
  warnings : r.warnings < Nat.pow 2 64
  places : ∀ i ∈ r.issues, i.location.InRange
  named : ∀ i ∈ r.issues, ∃ p : Path, i.location.file = p.raw

/-- A value has a JSON form of its shape, from which it is read back. -/
def ReadsBack {α : Type} (shape : Shape) (write : α → Option Json)
    (read : Json → Option α) (x : α) : Prop :=
  ∃ v, write x = some v ∧ shape.Holds v ∧ read v = some x

theorem exists_mapM {α : Type} {shape : Shape} {write : α → Option Json} {read : Json → Option α}
    {xs : List α} (h : ∀ x ∈ xs, ReadsBack shape write read x) :
    ∃ vs, xs.mapM write = some vs ∧ (∀ v ∈ vs, shape.Holds v) ∧ vs.mapM read = some xs := by
  induction xs with
  | nil => exact ⟨[], rfl, by simp, rfl⟩
  | cons x xs ih =>
    rw [List.forall_mem_cons] at h
    obtain ⟨v, hw, hv, hr⟩ := h.1
    obtain ⟨vs, hws, hvs, hrs⟩ := ih h.2
    exact ⟨v :: vs, by simp [hw, hws], List.forall_mem_cons.mpr ⟨hv, hvs⟩, by simp [hr, hrs]⟩

section Shapes

theorem Json.holds_ofNat? {n : Option Nat} (h : ∀ c ∈ n, c < Nat.pow 2 64) :
    (Shape.optional .count).Holds (ofNat? n) := by
  cases n with
  | none => exact .inl rfl
  | some c => exact .inr ⟨c, h c rfl, rfl⟩

theorem Json.holds_ofText? (wanted : Text) (s : Option Text) :
    (Shape.optional (.text wanted)).Holds (ofText? s) := by
  cases s with
  | none => exact .inl rfl
  | some s => exact .inr ⟨s, rfl⟩

theorem Severity.holds_toJson (s : Severity) : Severity.shape.Holds s.toJson := by
  refine ⟨s.toText, ?_, rfl⟩
  cases s <;> decide

theorem Options.holds_toJson (o : Options) : Options.shape.Holds o.toJson :=
  Shape.holds_record (by decide) ⟨_, _, rfl, holds_ofText? _ _, _, _, rfl, ⟨o.posix, rfl⟩, rfl⟩

theorem Directive.holds_toJson (d : Directive) : Directive.shape.Holds d.toJson := by
  have hglobs : (Shape.list (.text "a string")).Holds (.array (d.globs.map .string)) := by
    refine ⟨_, rfl, fun x hx => ?_⟩
    obtain ⟨glob, -, rfl⟩ := List.mem_map.mp hx
    exact ⟨glob, rfl⟩
  exact Shape.holds_record (by decide) ⟨_, _, rfl, ⟨d.label, rfl⟩, _, _, rfl, hglobs,
    _, _, rfl, d.options.holds_toJson, rfl⟩

end Shapes

section Values

theorem natOrNull?_ofNat? (n : Option Nat) : natOrNull? (ofNat? n) = some n := by
  cases n <;> rfl

theorem textOrNull?_ofText? (s : Option Text) : textOrNull? (ofText? s) = some s := by
  cases s <;> rfl

theorem Severity.ofJson?_toJson (s : Severity) : Severity.ofJson? s.toJson = some s := by
  cases s <;> rfl

theorem Directive.textsOf?_strings (texts : List Text) :
    textsOf? (texts.map .string) = some texts := by
  induction texts with
  | nil => rfl
  | cons s texts ih => simp [textsOf?, ih]

theorem Options.ofJson?_toJson (o : Options) : Options.ofJson? o.toJson = some o := by
  obtain ⟨base, posix⟩ := o
  cases base <;> rfl

theorem Directive.ofJson?_toJson (d : Directive) : Directive.ofJson? d.toJson = some d := by
  simp [toJson, ofJson?, textsOf?_strings, Options.ofJson?_toJson]

end Values

section Results

theorem Location.readsBack {l : Location} (h : l.InRange) (hf : ∃ p : Path, l.file = p.raw) :
    ReadsBack shape toJson? ofJson? l := by
  obtain ⟨p, hp⟩ := hf
  have ht : RawText.toText? l.file.text = some p.text := by
    rw [hp, Path.raw, RawText.toText?_bytes]
  refine ⟨.object [("file", .string p.text), ("line", .ofNat l.line), ("column", .ofNat? l.column)],
    ?_, ?_, ?_⟩
  · simp [toJson?, ht]
  · exact Shape.holds_record (by decide) ⟨_, _, rfl, ⟨p.text, rfl⟩, _, _, rfl,
      ⟨l.line, h.line, rfl⟩, _, _, rfl, holds_ofNat? h.column, rfl⟩
  · simp [ofJson?, natOf?, ofNat, natOrNull?_ofNat?, ← hp]

theorem CheckIssue.readsBack {i : CheckIssue} (h : i.location.InRange)
    (hf : ∃ p : Path, i.location.file = p.raw) : ReadsBack shape toJson? ofJson? i := by
  obtain ⟨place, hw, hp, hr⟩ := Location.readsBack h hf
  refine ⟨.object [("severity", i.severity.toJson), ("code", .string i.code),
    ("message", .string i.message), ("location", place), ("suggestion", .ofText? i.suggestion)],
    ?_, ?_, ?_⟩
  · simp [toJson?, hw]
  · exact Shape.holds_record (by decide) ⟨_, _, rfl, i.severity.holds_toJson, _, _, rfl,
      ⟨i.code, rfl⟩, _, _, rfl, ⟨i.message, rfl⟩, _, _, rfl, hp, _, _, rfl,
      holds_ofText? _ i.suggestion, rfl⟩
  · simp [ofJson?, Severity.ofJson?_toJson, hr, textOrNull?_ofText?]

theorem CheckResult.readsBack {r : CheckResult} (h : r.InRange) :
    ReadsBack shape toJson? ofJson? r := by
  obtain ⟨issues, hw, hi, hr⟩ :=
    exists_mapM fun i hi => CheckIssue.readsBack (h.places i hi) (h.named i hi)
  refine ⟨.object [("files_checked", .ofNat r.filesChecked),
    ("annotations_checked", .ofNat r.annotationsChecked), ("issues", .array issues),
    ("errors", .ofNat r.errors), ("warnings", .ofNat r.warnings)], ?_, ?_, ?_⟩
  · simp [toJson?, hw]
  · exact Shape.holds_record (by decide) ⟨_, _, rfl, ⟨_, h.filesChecked, rfl⟩,
      _, _, rfl, ⟨_, h.annotationsChecked, rfl⟩, _, _, rfl, ⟨_, rfl, hi⟩, _, _, rfl,
      ⟨_, h.errors, rfl⟩, _, _, rfl, ⟨_, h.warnings, rfl⟩, rfl⟩
  · simp [ofJson?, natOf?, ofNat, hr]

/-- Both layouts are read as the JSON form of the result. -/
theorem CheckResult.parse_render {r : CheckResult} (h : r.InRange) (color : Bool) :
    parse (Report.ofCheck color .json r) = .ok (some r) ∧
      parse (Report.ofCheck color .jsonPretty r) = .ok (some r) := by
  obtain ⟨v, hw, hv, hr⟩ := CheckResult.readsBack h
  simp [parse, Report.ofCheck, Report.render, hw, hv.parse_compact, hv.parse_pretty, Except.map, hr]

end Results

/-- A result whose numbers fit into 64 bits, with files that texts name, is read back from both JSON
reports, and every directive from both of its JSON forms, whatever their texts hold. -/
theorem Report.readBack_exact :
    (∀ (color : Bool) (r : CheckResult), r.InRange →
      CheckResult.parse (ofCheck color .json r) = .ok (some r) ∧
      CheckResult.parse (ofCheck color .jsonPretty r) = .ok (some r)) ∧
    ∀ d : Directive,
      (Directive.shape.parse d.toJson.compact).map Directive.ofJson? = .ok (some d) ∧
      (Directive.shape.parse d.toJson.pretty).map Directive.ofJson? = .ok (some d) := by
  refine ⟨fun color r h => CheckResult.parse_render h color, fun d => ⟨?_, ?_⟩⟩
  · rw [d.holds_toJson.parse_compact, Except.map, Directive.ofJson?_toJson]
  · rw [d.holds_toJson.parse_pretty, Except.map, Directive.ofJson?_toJson]

/-- A result with the greatest numbers, and with quotes, backslashes and line breaks in its
texts. -/
theorem Report.readBack_exact_greatest :
    let place : Location := ⟨Path.raw ⟨['"', '\\', 'é']⟩, Nat.pow 2 64 - 1, some (Nat.pow 2 64 - 1)⟩
    let issue : CheckIssue := ⟨.error, "E001", ['a', '\n', ','], place, some ['\x7d', '"']⟩
    let bare : CheckIssue := ⟨.warning, "W001", [], ⟨⟨[]⟩, 0, none⟩, none⟩
    let r : CheckResult := ⟨Nat.pow 2 64 - 1, 2, [issue, bare], 1, 1⟩
    r.InRange ∧ CheckResult.parse (ofCheck true .json r) = .ok (some r) ∧
    CheckResult.parse (ofCheck true .jsonPretty r) = .ok (some r) := by
  intro place issue bare r
  have hplace : place.InRange := ⟨by decide, by simp [place]⟩
  have hbare : bare.location.InRange := ⟨by decide, by simp [bare]⟩
  have hr : r.InRange := by
    refine ⟨by decide, by decide, by decide, by decide, ?_, ?_⟩
    · simp only [r, List.forall_mem_cons]
      exact ⟨hplace, hbare, by simp⟩
    · simp only [r, List.forall_mem_cons]
      exact ⟨⟨_, rfl⟩, ⟨⟨[]⟩, rfl⟩, by simp⟩
  exact ⟨hr, readBack_exact.1 true r hr⟩

end SourceMarks
