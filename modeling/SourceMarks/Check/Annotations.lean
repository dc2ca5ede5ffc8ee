import SourceMarks.Check.Basic
import SourceMarks.Directive.Resolve
import SourceMarks.Version.Target

/-!
Checking the annotations of texts and trees. All issues are collected: first those of load markers,
then an empty load marker, then the targets of cache markers and the markers that have none.
-/

namespace SourceMarks.Check

/-- A check of load markers in progress: the labels taken, how many markers, and the result. -/
structure LoadCheck where
  labels : List Text
  loads : Nat
  result : CheckResult

def checkFiles (m : Option Matcher) (d : Directive) (l : Location) (r : CheckResult) :
    CheckResult :=
  match m with
  | none => r
  | some m =>
    match d.resolve m with
    | .ok files =>
      if files.isEmpty then
        r.addWarning "W001" ("Label `".toList ++ d.label ++ "` matches no files".toList) l
      else r
    | .error e => r.addError e l

def checkLoad (file : RawPath) (text : Text) (m : Option Matcher) (s : LoadCheck) (o : Occurrence) :
    LoadCheck :=
  let l : Location := ⟨file, o.line, some (text.columnOf o.start)⟩
  match Payload.parse o.payload with
  | .error e => ⟨s.labels, s.loads + 1, s.result.addError e l⟩
  | .ok d =>
    if s.labels.contains d.label then
      ⟨s.labels, s.loads + 1, s.result.addError (.duplicateLabel d.label) l⟩
    else ⟨d.label :: s.labels, s.loads + 1, checkFiles m d l s.result⟩

/-- Checks for a load marker without a payload. -/
def checkEmptyLoad (file : RawPath) (text : Text) (s : LoadCheck) : LoadCheck :=
  match Marker.emptyLoadLine? text with
  | none => s
  | some line => { s with
      loads := s.loads + 1
      result := s.result.addError .emptyArguments ⟨file, line, none⟩ }

/-- Checks the target of one cache marker. -/
def checkTarget (file : RawPath) (r : CheckResult) (o : Occurrence) : CheckResult :=
  match Version.classify o.payload with
  | .ok _ => r
  | .error e => r.addError e ⟨file, o.line + 1, none⟩

/-- Warns of cache markers that no line follows. -/
def checkDangling (file : RawPath) (text : Text) (targets : Nat) (r : CheckResult) : CheckResult :=
  let markers := Text.countOf Marker.bareNoCache text
  if targets < markers then
    r.addWarning "W002"
      (Text.ofNat (markers - targets) ++
        " //@NoCache() marker(s) without a target on the next line".toList)
      ⟨file, 0, none⟩
  else r

/-- Checks every annotation of a text. Without a matcher the files of labels are not looked for. -/
def checkText (file : RawPath) (text : Text) (m : Option Matcher) : CheckResult :=
  let start : LoadCheck := ⟨[], 0, { CheckResult.empty with filesChecked := 1 }⟩
  let s := checkEmptyLoad file text
    ((Marker.load.scan text).foldl (checkLoad file text m) start)
  let targets := Marker.noCache.scan text
  let r := checkDangling file text targets.length (targets.foldl (checkTarget file) s.result)
  { r with annotationsChecked := s.loads + targets.length }

/-- What a check of files looks at. -/
structure Scope where
  /-- Whether the files of labels are looked for. -/
  resolveGlobs : Bool
  extensions : List Text

/-- Checks a file. One that cannot be read is an issue itself. -/
def checkFile (tree : Tree) (s : Scope) (m : Matcher) (file : RawPath) : CheckResult :=
  match tree.readText file with
  | .ok text => checkText file text (if s.resolveGlobs then some m else none)
  | .error e =>
    { CheckResult.empty with filesChecked := 1 }.addError (.unreadable file e) ⟨file, 0, none⟩

def checkPaths (tree : Tree) (s : Scope) (m : Matcher) (paths : List RawPath) : CheckResult :=
  (paths.flatMap fun p => tree.discover p s.extensions).foldl
    (fun r file => r.merge (checkFile tree s m file)) .empty

end SourceMarks.Check
