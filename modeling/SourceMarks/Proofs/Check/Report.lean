import Mathlib.Data.List.Infix
import SourceMarks.Proofs.Check.Agreement
import SourceMarks.Proofs.Directive.Grammar

/-!
What a check of a text reports, against what there is to report. Main statement: each load marker at
fault and each target that cannot be versioned is reported once, but of the empty load markers only
the first.
-/
namespace SourceMarks

/-- The beginnings of a text behind which a word stands. -/
def Text.fronts (text word : Text) : List Text :=
  text.inits.filter fun front => front ++ word <+: text

theorem Text.fronts_cons (c : Char) (text word : Text) : fronts (c :: text) word =
    (if word <+: c :: text then [[]] else []) ++ (text.fronts word).map (c :: ·) := by
  have htail : (text.inits.map (c :: ·)).filter (fun front => front ++ word <+: c :: text) =
      (text.fronts word).map (c :: ·) := by
    rw [List.filter_map, fronts]
    simp [Function.comp_def]
  rw [fronts, List.inits_cons, List.filter_cons, htail]
  split <;> simp_all

theorem Text.head?_fronts (text word : Text) : (text.fronts word).head? = before? word text := by
  induction text with
  | nil => cases word <;> simp [fronts, before?]
  | cons c text ih =>
    rw [fronts_cons, before?, ← ih]
    by_cases h : word <+: c :: text
    · simp [h, isSome_after?_iff.mpr h]
    · simp [h, mt isSome_after?_iff.mp h]

instance (os : List Occurrence) (label : Text) : Decidable (Taken os label) :=
  decidable_of_iff (∃ o ∈ os,
    (Payload.parse o.payload).toOption.map Directive.label = some label) <| by
    refine exists_congr fun o => and_congr_right fun _ => ?_
    cases Payload.parse o.payload <;> simp [Except.toOption]

namespace Check
variable (file : RawPath) (text : Text)

/-- What is wrong with a load marker that stands behind others, if anything is. -/
def offence? (before : List Occurrence) (o : Occurrence) : Option Fault :=
  match Payload.parse o.payload with
  | .error e => some e
  | .ok d => if Taken before d.label then some (.duplicateLabel d.label) else none

/-- Errors for those of some load markers that are at fault, given the markers before them. -/
def offenceErrors (marked : List (List Occurrence × Occurrence)) : List CheckIssue :=
  marked.filterMap fun (before, o) => (offence? before o).map (·.issue (loadPlace file text o))

/-- An error for each load marker that is at fault. -/
def loadErrors : List CheckIssue :=
  offenceErrors file text ((Marker.load.scan text).inits.zip (Marker.load.scan text))

/-- An error for each empty load marker, on its line. -/
def emptyErrors : List CheckIssue :=
  (text.fronts Marker.emptyLoad).map fun front =>
    Fault.emptyArguments.issue (linePlace file front.lineAfter)

/-- An error for each cache marker whose target cannot be versioned. -/
def targetErrors : List CheckIssue :=
  (Marker.noCache.scan text).filterMap fun o =>
    match Version.classify o.payload with
    | .ok _ => none
    | .error e => some (e.issue (linePlace file (o.line + 1)))

section Passes
variable {labels : List Text} {prior : List Occurrence} {o : Occurrence}

theorem offenceErrors_cons (before : List Occurrence) (o : Occurrence)
    (marked : List (List Occurrence × Occurrence)) :
    offenceErrors file text ((before, o) :: marked) =
      ((offence? before o).map (·.issue (loadPlace file text o))).toList ++
        offenceErrors file text marked := by
  rw [offenceErrors, offenceErrors, List.filterMap_cons]
  cases h : offence? before o <;> simp [h]

theorem markerFaults_none (h : ∀ l, l ∈ labels ↔ Taken prior l) :
    markerFaults none labels o = (offence? prior o).toList := by
  unfold markerFaults offence?
  cases Payload.parse o.payload with
  | error e => rfl
  | ok d => by_cases hd : Taken prior d.label <;> simp [fileFaults, h, hd]

/-- The labels that a pass has met are those of the markers it has gone through, so it finds at each
marker what is wrong with it. -/
theorem issues_loadFindings (h : ∀ l, l ∈ labels ↔ Taken prior l) (os : List Occurrence) :
    (loadFindings file text none labels os).map (fun f => f.1.issue f.2) =
      offenceErrors file text ((os.inits.map (prior ++ ·)).zip os) := by
  induction os generalizing labels prior with
  | nil => rfl
  | cons o os ih =>
    have hrest := ih (mem_labelsAfter_iff (o := o) h)
    have hinits : (o :: os).inits.map (prior ++ ·) = prior :: os.inits.map (prior ++ [o] ++ ·) := by
      simp [Function.comp_def]
    rw [loadFindings, List.map_append, hrest, markerFaults_none h, hinits, List.zip_cons_cons,
      offenceErrors_cons]
    cases offence? prior o <;> rfl

theorem issues_emptyFindings :
    (emptyFindings file text).map (fun f => f.1.issue f.2) = (emptyErrors file text).take 1 := by
  rw [emptyFindings, Marker.emptyLoadLine?, ← Text.head?_fronts, emptyErrors]
  cases text.fronts Marker.emptyLoad <;> simp

theorem issues_targetFindings (os : List Occurrence) :
    (targetFindings file os).map (fun f => f.1.issue f.2) = os.filterMap fun o =>
      match Version.classify o.payload with
      | .ok _ => none
      | .error e => some (e.issue (linePlace file (o.line + 1))) := by
  induction os with
  | nil => rfl
  | cons o os ih =>
    rw [targetFindings]
    cases hc : Version.classify o.payload <;> simp [hc, ih]

end Passes

/-- A payload that is refused lacks its label, its globs or its options. -/
theorem code_of_parse {payload : Text} {e : Fault} (h : Payload.parse payload = .error e) :
    e.code ∈ ["E001".toList, "E002".toList, "E003".toList] := by
  have hv := Payload.verdict_parse payload
  rw [h] at hv
  cases hv with
  | unlabelled => exact List.mem_cons_self
  | globs => exact List.mem_cons_of_mem _ List.mem_cons_self
  | options => exact List.mem_cons_of_mem _ (List.mem_cons_of_mem _ List.mem_cons_self)

theorem code_of_classify {target : Text} {e : Fault} (h : Version.classify target = .error e) :
    e.code = "E006".toList := by
  rw [Version.classify_eq_error h]
  rfl

/-- Without a matcher a check reports each load marker that cannot be parsed or repeats a label, and
each target that cannot be versioned, but of the empty load markers only the first. So it reports
all there is just when a text holds at most one of these. -/
theorem errors_checkText :
    (checkText file text none).errorIssues =
      loadErrors file text ++ (emptyErrors file text).take 1 ++ targetErrors file text ∧
    ((checkText file text none).errorIssues.Perm
        (loadErrors file text ++ emptyErrors file text ++ targetErrors file text) ↔
      (emptyErrors file text).length ≤ 1) ∧
    (∀ payload e, Payload.parse payload = .error e →
      e.code ∈ ["E001".toList, "E002".toList, "E003".toList]) ∧
    ∀ target e, Version.classify target = .error e → e.code = "E006".toList := by
  have hload :
      (loadFindings file text none [] (Marker.load.scan text)).map (fun f => f.1.issue f.2) =
      loadErrors file text := by
    have h := @issues_loadFindings file text [] [] (by simp [Taken]) (Marker.load.scan text)
    simpa [loadErrors] using h
  have herrors : (checkText file text none).errorIssues =
      loadErrors file text ++ (emptyErrors file text).take 1 ++ targetErrors file text := by
    rw [(lists_checkText file text none).issues, findings, List.map_append, List.map_append, hload,
      issues_emptyFindings, issues_targetFindings]
    rfl
  refine ⟨herrors, ?_, fun payload e => code_of_parse, fun target e => code_of_classify⟩
  rw [herrors]
  constructor
  · intro h
    have hlength := h.length_eq
    simp only [List.length_append, List.length_take] at hlength
    omega
  · intro h
    rw [List.take_of_length_le h]

/-- Two empty load markers on lines of their own. -/
def twoEmpty : Text := "//@Load()\n//@Load()\n"

/-- The second one is not reported. -/
theorem errors_twoEmpty :
    (checkText ⟨[]⟩ twoEmpty none).errorIssues = [Fault.emptyArguments.issue (linePlace ⟨[]⟩ 1)] ∧
    emptyErrors ⟨[]⟩ twoEmpty =
      [Fault.emptyArguments.issue (linePlace ⟨[]⟩ 1),
        Fault.emptyArguments.issue (linePlace ⟨[]⟩ 2)] ∧
    ¬ (checkText ⟨[]⟩ twoEmpty none).errorIssues.Perm
      (loadErrors ⟨[]⟩ twoEmpty ++ emptyErrors ⟨[]⟩ twoEmpty ++ targetErrors ⟨[]⟩ twoEmpty) := by
  have hreported : (checkText ⟨[]⟩ twoEmpty none).errorIssues =
      [Fault.emptyArguments.issue (linePlace ⟨[]⟩ 1)] := by decide +kernel
  have hempty : emptyErrors ⟨[]⟩ twoEmpty =
      [Fault.emptyArguments.issue (linePlace ⟨[]⟩ 1),
        Fault.emptyArguments.issue (linePlace ⟨[]⟩ 2)] := by
    decide +kernel
  have hone := congrArg List.length hreported
  have htwo := congrArg List.length hempty
  rw [List.length_singleton] at hone
  rw [List.length_cons, List.length_singleton] at htwo
  refine ⟨hreported, hempty, fun h => ?_⟩
  have hlength := h.length_eq
  rw [List.length_append, List.length_append, hone, htwo] at hlength
  omega

end Check
end SourceMarks
