import SourceMarks.Check.Basic

/-! The JSON form of check results, and reading it back. -/

namespace SourceMarks

namespace Severity

def toText : Severity → Text
  | error => "error"
  | warning => "warning"

def shape : Json.Shape := .choice ["error", "warning"]

def toJson (s : Severity) : Json := .string s.toText

def ofJson? : Json → Option Severity
  | .string s =>
    if s = toText error then some error
    else if s = toText warning then some warning
    else none
  | _ => none

end Severity

def natOf? : Json → Option Nat
  | .number (.natural n) => some n
  | _ => none

def natOrNull? : Json → Option (Option Nat)
  | .null => some none
  | .number (.natural n) => some (some n)
  | _ => none

def textOrNull? : Json → Option (Option Text)
  | .null => some none
  | .string s => some (some s)
  | _ => none

namespace Location

def shape : Json.Shape :=
  .record "Location"
    (.field "file" (.text "path string") none
      (.field "line" .count none
        (.field "column" (.optional .count) none .none)))

/-- A file that no text names has no JSON form. -/
def toJson? (l : Location) : Option Json := do
  some (.object [("file", .string (← RawText.toText? l.file.text)), ("line", .ofNat l.line),
    ("column", .ofNat? l.column)])

def ofJson? : Json → Option Location
  | .object [(_, .string file), (_, line), (_, column)] => do
    some ⟨Path.raw ⟨file⟩, ← natOf? line, ← natOrNull? column⟩
  | _ => none

end Location

namespace CheckIssue

def shape : Json.Shape :=
  .record "CheckIssue"
    (.field "severity" Severity.shape none
      (.field "code" (.text "a string") none
        (.field "message" (.text "a string") none
          (.field "location" Location.shape none
            (.field "suggestion" (.optional (.text "a string")) none .none)))))

def toJson? (i : CheckIssue) : Option Json := do
  some (.object [("severity", i.severity.toJson), ("code", .string i.code),
    ("message", .string i.message), ("location", ← i.location.toJson?),
    ("suggestion", .ofText? i.suggestion)])

def ofJson? : Json → Option CheckIssue
  | .object [(_, severity), (_, .string code), (_, .string message), (_, location),
      (_, suggestion)] => do
    some ⟨← Severity.ofJson? severity, code, message, ← Location.ofJson? location,
      ← textOrNull? suggestion⟩
  | _ => none

end CheckIssue

namespace CheckResult

def shape : Json.Shape :=
  .record "CheckResult"
    (.field "files_checked" .count none
      (.field "annotations_checked" .count none
        (.field "issues" (.list CheckIssue.shape) none
          (.field "errors" .count none
            (.field "warnings" .count none .none)))))

def toJson? (r : CheckResult) : Option Json := do
  some (.object [("files_checked", .ofNat r.filesChecked),
    ("annotations_checked", .ofNat r.annotationsChecked),
    ("issues", .array (← r.issues.mapM CheckIssue.toJson?)), ("errors", .ofNat r.errors),
    ("warnings", .ofNat r.warnings)])

def ofJson? : Json → Option CheckResult
  | .object [(_, files), (_, annotations), (_, .array issues), (_, errors), (_, warnings)] => do
    some ⟨← natOf? files, ← natOf? annotations, ← issues.mapM CheckIssue.ofJson?, ← natOf? errors,
      ← natOf? warnings⟩
  | _ => none

def parse (text : Text) : Except Json.Fault (Option CheckResult) :=
  (shape.parse text).map ofJson?

end CheckResult
end SourceMarks
