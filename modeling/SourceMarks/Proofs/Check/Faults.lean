import SourceMarks.Check.Annotations
import SourceMarks.Proofs.Expansion.Exact

/-!
The faults that a check reports, as a list of their own, with the places where they are found. Main
statement: a result counts and holds exactly these faults as its errors, in this order.
-/
namespace SourceMarks

/-- The issue that shows a fault at a place. -/
def Fault.issue (e : Fault) (l : Location) : CheckIssue :=
  ⟨.error, e.code, e.message, l, e.suggestion?⟩

/-- The issues of a result that count against it. -/
def CheckResult.errorIssues (r : CheckResult) : List CheckIssue :=
  r.issues.filter (·.severity = .error)

/-- A result has an error that shows a fault. -/
def CheckResult.Reports (r : CheckResult) (e : Fault) : Prop :=
  ∃ i ∈ r.issues, i.severity = .error ∧ i.code = e.code ∧ i.message = e.message

/-- The errors of a result are these faults, in order. -/
structure CheckResult.Records (r : CheckResult) (faults : List Fault) : Prop where
  count : r.errors = faults.length
  issues : (r.issues.filter (·.severity = .error)).map (fun i => (i.code, i.message)) =
    faults.map fun e => (e.code, e.message)

/-- The errors of a result are these faults at these places, in order. -/
structure CheckResult.Lists (r : CheckResult) (found : List (Fault × Location)) : Prop where
  count : r.errors = found.length
  issues : r.errorIssues = found.map fun f => f.1.issue f.2

namespace CheckResult
variable {r : CheckResult} {faults : List Fault} {found : List (Fault × Location)}

theorem Lists.addError (h : r.Lists found) (e : Fault) (l : Location) :
    (r.addError e l).Lists (found ++ [(e, l)]) := by
  refine ⟨by simp [CheckResult.addError, h.count], ?_⟩
  rw [List.map_append, ← h.issues]
  simp [CheckResult.addError, errorIssues, List.filter_append, Fault.issue]

theorem Lists.addWarning (h : r.Lists found) (code message : Text) (l : Location) :
    (r.addWarning code message l).Lists found := by
  refine ⟨h.count, ?_⟩
  rw [← h.issues]
  simp [CheckResult.addWarning, errorIssues, List.filter_append]

theorem Lists.records (h : r.Lists found) : r.Records (found.map Prod.fst) := by
  refine ⟨by simp [h.count], ?_⟩
  have hi := h.issues
  rw [errorIssues] at hi
  rw [hi, List.map_map, List.map_map]
  rfl

theorem Records.reports (h : r.Records faults) {e : Fault} (he : e ∈ faults) : r.Reports e := by
  have hm : (e.code, e.message) ∈ faults.map fun e => (e.code, e.message) :=
    List.mem_map_of_mem he
  rw [← h.issues, List.mem_map] at hm
  obtain ⟨i, hi, heq⟩ := hm
  obtain ⟨hi, hs⟩ := List.mem_filter.mp hi
  obtain ⟨hc, hm⟩ := Prod.mk.inj heq
  exact ⟨i, hi, by simpa using hs, hc, hm⟩

end CheckResult

namespace Check
variable (file : RawPath) (text : Text) (m : Option Matcher)

/-- What keeps a directive from being resolved, if that is tried. -/
def fileFaults (m : Option Matcher) (d : Directive) : List Fault :=
  match m with
  | none => []
  | some m =>
    match d.resolve m with
    | .ok _ => []
    | .error e => [e]

def markerFaults (m : Option Matcher) (labels : List Text) (o : Occurrence) : List Fault :=
  match Payload.parse o.payload with
  | .error e => [e]
  | .ok d => if labels.contains d.label then [.duplicateLabel d.label] else fileFaults m d

def labelsAfter (labels : List Text) (o : Occurrence) : List Text :=
  match Payload.parse o.payload with
  | .error _ => labels
  | .ok d => if labels.contains d.label then labels else d.label :: labels

def loadFaults (m : Option Matcher) : (labels : List Text) → List Occurrence → List Fault
  | _, [] => []
  | labels, o :: os => markerFaults m labels o ++ loadFaults m (labelsAfter labels o) os

def emptyFaults (text : Text) : List Fault :=
  if (Marker.emptyLoadLine? text).isSome then [.emptyArguments] else []

def targetFaults : List Occurrence → List Fault
  | [] => []
  | o :: os =>
    match Version.classify o.payload with
    | .ok _ => targetFaults os
    | .error e => e :: targetFaults os

/-- All faults of a text, in the order in which they are found. -/
def faults (m : Option Matcher) (text : Text) : List Fault :=
  loadFaults m [] (Marker.load.scan text) ++ emptyFaults text ++
    targetFaults (Marker.noCache.scan text)

section Places

/-- The place of a load marker. -/
def loadPlace (o : Occurrence) : Location := ⟨file, o.line, some (text.columnOf o.start)⟩

/-- The place of a line, where its column does not matter. -/
def linePlace (line : Nat) : Location := ⟨file, line, none⟩

def loadFindings : (labels : List Text) → List Occurrence → List (Fault × Location)
  | _, [] => []
  | labels, o :: os => (markerFaults m labels o).map (·, loadPlace file text o) ++
    loadFindings (labelsAfter labels o) os

def emptyFindings : List (Fault × Location) :=
  (Marker.emptyLoadLine? text).toList.map fun line => (.emptyArguments, linePlace file line)

def targetFindings : List Occurrence → List (Fault × Location)
  | [] => []
  | o :: os =>
    match Version.classify o.payload with
    | .ok _ => targetFindings os
    | .error e => (e, linePlace file (o.line + 1)) :: targetFindings os

/-- All faults of a text, with their places. -/
def findings : List (Fault × Location) :=
  loadFindings file text m [] (Marker.load.scan text) ++ emptyFindings file text ++
    targetFindings file (Marker.noCache.scan text)

theorem map_fst_loadFindings (labels : List Text) (os : List Occurrence) :
    (loadFindings file text m labels os).map Prod.fst = loadFaults m labels os := by
  induction os generalizing labels with
  | nil => rfl
  | cons o os ih => simp [loadFindings, loadFaults, ih, Function.comp_def]

theorem map_fst_emptyFindings : (emptyFindings file text).map Prod.fst = emptyFaults text := by
  rw [emptyFindings, emptyFaults]
  cases Marker.emptyLoadLine? text <;> simp

theorem map_fst_targetFindings (os : List Occurrence) :
    (targetFindings file os).map Prod.fst = targetFaults os := by
  induction os with
  | nil => rfl
  | cons o os ih =>
    rw [targetFindings, targetFaults]
    cases Version.classify o.payload <;> simp [ih]

theorem map_fst_findings : (findings file text m).map Prod.fst = faults m text := by
  simp [findings, faults, map_fst_loadFindings, map_fst_emptyFindings, map_fst_targetFindings]

end Places

theorem lists_checkFiles {r : CheckResult} {found : List (Fault × Location)} (h : r.Lists found)
    (d : Directive) (l : Location) :
    (checkFiles m d l r).Lists (found ++ (fileFaults m d).map (·, l)) := by
  cases m with
  | none => simpa [checkFiles, fileFaults] using h
  | some m =>
    cases hr : d.resolve m with
    | error e => simpa [checkFiles, fileFaults, hr] using h.addError e l
    | ok files =>
      simp only [checkFiles, fileFaults, hr, List.map_nil, List.append_nil]
      split
      · exact h.addWarning _ _ l
      · exact h

theorem labels_checkLoad (s : LoadCheck) (o : Occurrence) :
    (checkLoad file text m s o).labels = labelsAfter s.labels o := by
  unfold checkLoad labelsAfter
  cases Payload.parse o.payload with
  | error e => rfl
  | ok d =>
    simp only
    split <;> rfl

theorem lists_checkLoad {s : LoadCheck} {found : List (Fault × Location)} (h : s.result.Lists found)
    (o : Occurrence) : (checkLoad file text m s o).result.Lists
      (found ++ (markerFaults m s.labels o).map (·, loadPlace file text o)) := by
  unfold checkLoad markerFaults
  cases Payload.parse o.payload with
  | error e => exact h.addError e _
  | ok d =>
    simp only
    split
    · exact h.addError _ _
    · exact lists_checkFiles m h d _

theorem lists_foldl_checkLoad (os : List Occurrence) {s : LoadCheck}
    {found : List (Fault × Location)} (h : s.result.Lists found) :
    (os.foldl (checkLoad file text m) s).result.Lists
      (found ++ loadFindings file text m s.labels os) := by
  induction os generalizing s found with
  | nil => simpa [loadFindings] using h
  | cons o os ih =>
    have hs := ih (lists_checkLoad file text m h o)
    rwa [labels_checkLoad, List.append_assoc] at hs

theorem lists_checkEmptyLoad {s : LoadCheck} {found : List (Fault × Location)}
    (h : s.result.Lists found) :
    (checkEmptyLoad file text s).result.Lists (found ++ emptyFindings file text) := by
  cases hl : Marker.emptyLoadLine? text with
  | none => simpa [checkEmptyLoad, emptyFindings, hl] using h
  | some line =>
    have he := h.addError .emptyArguments (linePlace file line)
    simpa [checkEmptyLoad, emptyFindings, hl, linePlace] using he

theorem lists_foldl_checkTarget (os : List Occurrence) {r : CheckResult}
    {found : List (Fault × Location)} (h : r.Lists found) :
    (os.foldl (checkTarget file) r).Lists (found ++ targetFindings file os) := by
  induction os generalizing r found with
  | nil => simpa [targetFindings] using h
  | cons o os ih =>
    rw [List.foldl_cons]
    cases hc : Version.classify o.payload with
    | ok kind => simpa [checkTarget, targetFindings, hc] using ih h
    | error e =>
      have he := ih (h.addError e (linePlace file (o.line + 1)))
      simpa [checkTarget, targetFindings, hc, linePlace] using he

theorem lists_checkDangling {r : CheckResult} {found : List (Fault × Location)} (h : r.Lists found)
    (targets : Nat) : (checkDangling file text targets r).Lists found := by
  unfold checkDangling
  simp only
  split
  · exact h.addWarning _ _ _
  · exact h

/-- A check lists all faults of its text at their places, and no others. -/
theorem lists_checkText : (checkText file text m).Lists (findings file text m) := by
  have hstart : (({ CheckResult.empty with filesChecked := 1 } : CheckResult)).Lists [] :=
    ⟨rfl, rfl⟩
  have hload := lists_foldl_checkLoad file text m (Marker.load.scan text)
    (s := ⟨[], 0, _⟩) hstart
  have htarget := lists_foldl_checkTarget file (Marker.noCache.scan text)
    (lists_checkEmptyLoad file text hload)
  have hall := lists_checkDangling file text htarget (Marker.noCache.scan text).length
  exact ⟨hall.count, hall.issues⟩

/-- A check records all faults of its text, and no others. -/
theorem records_checkText (file : RawPath) (text : Text) (m : Option Matcher) :
    (checkText file text m).Records (faults m text) :=
  map_fst_findings file text m ▸ (lists_checkText file text m).records

end Check
end SourceMarks
