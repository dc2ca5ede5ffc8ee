import SourceMarks.Number.Shortest

/-! JSON values. The fields of an object are a list, so that an order can be kept. -/

namespace SourceMarks

/-- A number as it was read: whole numbers stay exact as far as 64 bits go. -/
inductive Json.Number
  | natural (n : Nat)
  | negative (n : Nat)
  | real (x : Binary64)
  deriving DecidableEq, Repr

inductive Json
  | null
  | bool (b : Bool)
  | number (n : Json.Number)
  | string (s : Text)
  | array (items : List Json)
  | object (fields : List (Text × Json))
  deriving Inhabited, Repr

namespace Json

/-- What a value is called in a message about a misplaced value. -/
def kind : Json → Text
  | null => "null"
  | bool _ => "a boolean"
  | number _ => "a number"
  | string _ => "a string"
  | array _ => "an array"
  | object _ => "an object"

def field? (name : Text) : List (Text × Json) → Option Json
  | [] => none
  | (key, value) :: rest => if key = name then some value else field? name rest

/-- Puts a field among fields that are sorted by name; a field of the same name is replaced. -/
def putField (name : Text) (value : Json) : List (Text × Json) → List (Text × Json)
  | [] => [(name, value)]
  | (key, old) :: rest =>
    if key = name then (name, value) :: rest
    else if Text.le name key then (name, value) :: (key, old) :: rest
    else (key, old) :: putField name value rest

def ofNat (n : Nat) : Json := number (.natural n)

def ofText? : Option Text → Json
  | none => null
  | some s => string s

def ofNat? : Option Nat → Json
  | none => null
  | some n => ofNat n

end Json
end SourceMarks
