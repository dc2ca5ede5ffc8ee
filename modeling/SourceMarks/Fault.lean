import SourceMarks.Glob.Pattern
import SourceMarks.Json.Fault
import SourceMarks.Tree.Basic

/-! Everything that can go wrong, with the code and the wording it is reported with. -/

namespace SourceMarks

inductive Fault
  | missingLabel (payload : Text)
  | invalidGlobs (payload reason : Text)
  | invalidOptions (payload reason : Text)
  | duplicateLabel (label : Text)
  | emptyArguments
  | unversionable (target : Text)
  | stream
  | invalidPattern (pattern : Text) (cause : Glob.Fault)
  | io (cause : Tree.Trouble)
  | unreadable (path : RawPath) (cause : Tree.Trouble)
  | unwritable (path : RawPath) (cause : Tree.Trouble)
  | notText (path : RawPath)
  | settings (path : RawPath) (message : Text)
  | json (cause : Json.Fault)
  deriving DecidableEq, Repr

namespace Fault

def code : Fault → Text
  | missingLabel _ => "E001"
  | invalidGlobs _ _ => "E002"
  | invalidOptions _ _ => "E003"
  | duplicateLabel _ => "E004"
  | emptyArguments => "E005"
  | unversionable _ => "E006"
  | stream => "E007"
  | invalidPattern _ _ => "E008"
  | notText _ => "E009"
  | io _ => "E100"
  | unreadable _ _ => "E100"
  | unwritable _ _ => "E100"
  | settings _ _ => "E101"
  | json _ => "E101"

def message : Fault → Text
  | missingLabel payload =>
    "Unable to find LABEL in: ".toList ++ payload ++
      "\nA label followed by a comma must come first".toList
  | invalidGlobs payload reason =>
    "Unable to parse GLOBS from: ".toList ++ payload ++
      "\nGlobs must be an array of strings (even if length is one!): ".toList ++ reason
  | invalidOptions payload reason =>
    "Unable to parse OPTIONS from: ".toList ++ payload ++
      "\nOptions must be a JSON object: ".toList ++ reason
  | duplicateLabel label =>
    "Duplicate label! `".toList ++ label ++
      "` is used by more than one //@Load annotation".toList
  | emptyArguments => "Empty arguments! //@Load() needs a label and a glob array"
  | unversionable target =>
    "Unable to version `".toList ++ target ++
      "`: it has no extension and is not a path, prefix it with ./".toList
  | stream => "Stream is not supported (yet)!"
  | invalidPattern pattern cause =>
    "Invalid glob pattern `".toList ++ pattern ++ "`: ".toList ++ cause.message
  | io cause => "IO error: ".toList ++ cause.message
  | unreadable path cause =>
    "Failed to read file ".toList ++ path.shown ++ ": ".toList ++ cause.message
  | unwritable path cause =>
    "Failed to write file ".toList ++ path.shown ++ ": ".toList ++ cause.message
  | notText path => "File ".toList ++ path.shown ++ " is not valid UTF-8".toList
  | settings path message =>
    "Invalid configuration ".toList ++ path.shown ++ ": ".toList ++ message
  | json cause => "JSON serialization error: ".toList ++ cause.message

/-- What can be done about a fault in an annotation. -/
def suggestion? : Fault → Option Text
  | missingLabel _ => some "Write //@Load(label, ['glob/**/*.js'])"
  | invalidGlobs _ _ => some "Wrap globs in an array, even a single one: ['a.js']"
  | invalidOptions _ _ => some "Options must be an object such as \x7b'base': 'src'\x7d"
  | duplicateLabel _ => some "Give every //@Load annotation of a file its own label"
  | emptyArguments => some "Add a label and a glob array inside //@Load()"
  | unversionable _ => some "Prefix the target with ./ or give it an extension"
  | _ => none

end Fault
end SourceMarks
