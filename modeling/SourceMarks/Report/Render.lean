import SourceMarks.Check.Record
import SourceMarks.Json.Writer
import SourceMarks.Pipeline.Summary
import SourceMarks.Report.Style
import SourceMarks.Text.Blank

/-! Reports of checks and runs, as text or as JSON. -/

namespace SourceMarks

inductive OutputFormat
  | text
  | json
  | jsonPretty
  deriving DecidableEq, Repr

namespace Report

/-- A JSON value in one of the formats, or a text of its own. Nothing is written of what has no JSON
form. -/
def render (format : OutputFormat) (v : Option Json) (text : Text) : Text :=
  match format with
  | .text => text
  | .json => (v.map Json.compact).getD []
  | .jsonPretty => (v.map Json.pretty).getD []

def firstLine (message : Text) : Text := message.lines.head?.getD message

/-- A place as `file:line`, with the column if there is one. -/
def placeText (l : Location) : Text :=
  l.file.shown ++ ':' :: Text.ofNat l.line ++
    match l.column with
    | none => []
    | some column => ':' :: Text.ofNat column

def severityText (color : Bool) : Severity → Text
  | .error => Style.failure.paint color "ERROR"
  | .warning => Style.caution.paint color "WARN"

/-- An issue on a line, with its suggestion on another. -/
def issueText (color : Bool) (i : CheckIssue) : Text :=
  severityText color i.severity ++ ' ' :: Style.dim.paint color (placeText i.location) ++
    " - ".toList ++ firstLine i.message ++ " (".toList ++ Style.dim.paint color i.code ++
    ")\n".toList ++
    match i.suggestion with
    | none => []
    | some s => "  ".toList ++ Style.hint.paint color "hint:" ++ ' ' :: s ++ ['\n']

def verdictText (color : Bool) (r : CheckResult) : Text :=
  if 0 < r.errors then
    Style.failure.paint color (Text.ofNat r.errors) ++ " errors, ".toList ++
      Style.count.paint color (Text.ofNat r.warnings) ++ " warnings\n".toList
  else if 0 < r.warnings then
    Style.success.paint color "OK" ++ ' ' :: Style.count.paint color (Text.ofNat r.warnings) ++
      " warnings\n".toList
  else Style.success.paint color "OK" ++ " No issues found\n".toList

def checkText (color : Bool) (r : CheckResult) : Text :=
  r.issues.flatMap (issueText color) ++ "\nChecked ".toList ++ Text.ofNat r.filesChecked ++
    " files, ".toList ++ Text.ofNat r.annotationsChecked ++ " annotations\n".toList ++
    verdictText color r

def ofCheck (color : Bool) (format : OutputFormat) (r : CheckResult) : Text :=
  render format r.toJson? (checkText color r)

/-- A failure on a line, with its message indented below. -/
def failureText (color : Bool) (f : FailureRecord) : Text :=
  Style.failure.paint color "FAILED" ++ ' ' :: f.path.shown ++ " (".toList ++
    Style.dim.paint color f.code ++ ")\n".toList ++
    ((f.message.lines.filter fun l => !l.trim.isEmpty).flatMap fun l => "  ".toList ++ l ++ ['\n'])

def runText (color : Bool) (s : RunSummary) : Text :=
  (s.written.flatMap fun p => Style.written.paint color "wrote" ++ ' ' :: p.shown ++ ['\n']) ++
    s.failures.flatMap (failureText color) ++ ['\n'] ++
    if s.passed then
      Style.success.paint color "OK" ++ ' ' :: s.transform ++ ": ".toList ++
        Text.ofNat s.written.length ++ " files written\n".toList
    else
      s.transform ++ ": ".toList ++ Text.ofNat s.written.length ++ " files written, ".toList ++
        Style.failure.paint color (Text.ofNat s.failures.length) ++ " failed\n".toList

def ofRun (color : Bool) (format : OutputFormat) (s : RunSummary) : Text :=
  render format s.toJson? (runText color s)

end Report
end SourceMarks
