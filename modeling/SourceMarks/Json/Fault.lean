import SourceMarks.Json.Basic
import SourceMarks.Text.Quoted

/-! Why a text is not the JSON value that is asked for, and where this shows. -/

namespace SourceMarks.Json

/-- What was found in the place of something else. -/
inductive Found
  | null
  | bool (b : Bool)
  | number (n : Number)
  | string (s : Text)
  | sequence
  | map
  deriving DecidableEq, Repr

inductive Problem
  | endInValue
  | endInList
  | endInObject
  | endInString
  | noValue
  | noWord
  | noColon
  | noListEnd
  | noObjectEnd
  | badEscape
  | badNumber
  | hugeNumber
  | controlCharacter
  | keyNotString
  | loneSurrogate
  | brokenSurrogate
  | trailingComma
  | trailingCharacters
  | tooDeep
  | wrongType (found : Found) (wanted : Text)
  | wrongValue (found : Found) (wanted : Text)
  | wrongLength (length : Nat) (wanted : Text)
  | unknownVariant (name : Text) (known : List Text)
  | missingField (name : Text)
  | repeatedField (name : Text)
  deriving DecidableEq, Repr

/-- What a value is called when it was not wanted. -/
def found : Json → Found
  | null => .null
  | bool b => .bool b
  | number n => .number n
  | string s => .string s
  | array _ => .sequence
  | object _ => .map

def Found.toText : Found → Text
  | null => "null"
  | bool true => "boolean `true`"
  | bool false => "boolean `false`"
  | number (.natural n) => "integer `".toList ++ Text.ofNat n ++ ['`']
  | number (.negative n) => "integer `-".toList ++ Text.ofNat n ++ ['`']
  | number (.real x) => "floating point `".toList ++ x.toText ++ ['`']
  | string s => "string ".toList ++ s.quoted
  | sequence => "sequence"
  | map => "map"

def oneOf : List Text → Text
  | [] => "there are no variants"
  | [a] => ['`'] ++ a ++ ['`']
  | [a, b] => ['`'] ++ a ++ "` or `".toList ++ b ++ ['`']
  | names => "one of ".toList ++ Text.join ", " (names.map fun a => ['`'] ++ a ++ ['`'])

def Problem.message : Problem → Text
  | endInValue => "EOF while parsing a value"
  | endInList => "EOF while parsing a list"
  | endInObject => "EOF while parsing an object"
  | endInString => "EOF while parsing a string"
  | noValue => "expected value"
  | noWord => "expected ident"
  | noColon => "expected `:`"
  | noListEnd => "expected `,` or `]`"
  | noObjectEnd => "expected `,` or `\x7d`"
  | badEscape => "invalid escape"
  | badNumber => "invalid number"
  | hugeNumber => "number out of range"
  | controlCharacter => "control character (\\u0000-\\u001F) found while parsing a string"
  | keyNotString => "key must be a string"
  | loneSurrogate => "lone leading surrogate in hex escape"
  | brokenSurrogate => "unexpected end of hex escape"
  | trailingComma => "trailing comma"
  | trailingCharacters => "trailing characters"
  | tooDeep => "recursion limit exceeded"
  | wrongType found wanted =>
    "invalid type: ".toList ++ found.toText ++ ", expected ".toList ++ wanted
  | wrongValue found wanted =>
    "invalid value: ".toList ++ found.toText ++ ", expected ".toList ++ wanted
  | wrongLength length wanted =>
    "invalid length ".toList ++ Text.ofNat length ++ ", expected ".toList ++ wanted
  | unknownVariant name known =>
    "unknown variant `".toList ++ name ++ "`, expected ".toList ++ oneOf known
  | missingField name => "missing field `".toList ++ name ++ ['`']
  | repeatedField name => "duplicate field `".toList ++ name ++ ['`']

/-- Reading stops: what is left of the text, and how many bytes of it are already looked at. -/
structure Stop where
  problem : Problem
  rest : Text
  ahead : Nat
  deriving DecidableEq, Repr

/-- A problem at the beginning of `rest`. -/
def stop (problem : Problem) (rest : Text) : Except Stop α := .error ⟨problem, rest, 0⟩

/-- A problem with the first byte of `rest`. -/
def stopAt (problem : Problem) (rest : Text) : Except Stop α := .error ⟨problem, rest, 1⟩

/-- A problem, with its line and its column in bytes if it belongs to a place in a text. -/
structure Fault where
  problem : Problem
  place : Option (Nat × Nat)
  deriving DecidableEq, Repr

def Fault.message (f : Fault) : Text :=
  match f.place with
  | none => f.problem.message
  | some (line, column) =>
    f.problem.message ++ " at line ".toList ++ Text.ofNat line ++ " column ".toList ++
      Text.ofNat column

/-- The line and the column, in bytes, at which a text was left. -/
def Stop.place (text : Text) (s : Stop) : Nat × Nat :=
  let read := Text.bytes (text.take (text.length - s.rest.length)) ++
    (Text.bytes s.rest).take s.ahead
  (read.count 10 + 1, (read.reverse.takeWhile (· != 10)).length)

def Stop.fault (text : Text) (s : Stop) : Fault := ⟨s.problem, some (s.place text)⟩

end SourceMarks.Json
