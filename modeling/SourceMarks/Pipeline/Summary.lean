import SourceMarks.Fault

/-! What a run is reported as: the paths written, and the failures. -/

namespace SourceMarks

structure FailureRecord where
  path : RawPath
  code : Text
  message : Text
  deriving DecidableEq, Repr

def FailureRecord.ofFault (path : RawPath) (e : Fault) : FailureRecord := ⟨path, e.code, e.message⟩

structure RunSummary where
  transform : Text
  written : List RawPath
  failures : List FailureRecord
  deriving DecidableEq, Repr

namespace RunSummary

def passed (s : RunSummary) : Bool := s.failures.isEmpty

/-- A path that no text spells has no JSON form. -/
def toJson? (s : RunSummary) : Option Json := do
  let written ← s.written.mapM fun p => (RawText.toText? p.text).map .string
  let failures ← s.failures.mapM fun f => do
    some (.object [("path", .string (← RawText.toText? f.path.text)), ("code", .string f.code),
      ("message", .string f.message)])
  some (.object [("transform", .string s.transform), ("written", .array written),
    ("failures", .array failures)])

end RunSummary
end SourceMarks
