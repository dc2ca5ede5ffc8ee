import SourceMarks.Fault
import SourceMarks.Json.Shape

/-! Results of checks: issues with their places, and totals. -/

namespace SourceMarks

inductive Severity
  | error
  | warning
  deriving DecidableEq, Repr

/-- A place in a file; line zero stands for the file as a whole. -/
structure Location where
  file : RawPath
  line : Nat
  column : Option Nat
  deriving DecidableEq, Repr

structure CheckIssue where
  severity : Severity
  code : Text
  message : Text
  location : Location
  suggestion : Option Text
  deriving DecidableEq, Repr

structure CheckResult where
  filesChecked : Nat
  annotationsChecked : Nat
  issues : List CheckIssue
  errors : Nat
  warnings : Nat
  deriving DecidableEq, Repr

namespace CheckResult

def empty : CheckResult := ⟨0, 0, [], 0, 0⟩

/-- Warnings do not count against a check. -/
def passed (r : CheckResult) : Bool := r.errors = 0

/-- The sum of two counts, which are kept in 64 bits. -/
def addCounts (a b : Nat) : Nat := (a + b) % Nat.pow 2 64

/-- Both results together. -/
def merge (a b : CheckResult) : CheckResult :=
  ⟨addCounts a.filesChecked b.filesChecked, addCounts a.annotationsChecked b.annotationsChecked,
    a.issues ++ b.issues, addCounts a.errors b.errors, addCounts a.warnings b.warnings⟩

def addError (r : CheckResult) (e : Fault) (l : Location) : CheckResult :=
  { r with
    issues := r.issues ++ [⟨.error, e.code, e.message, l, e.suggestion?⟩]
    errors := r.errors + 1 }

def addWarning (r : CheckResult) (code message : Text) (l : Location) : CheckResult :=
  { r with
    issues := r.issues ++ [⟨.warning, code, message, l, none⟩]
    warnings := r.warnings + 1 }

end CheckResult
end SourceMarks
