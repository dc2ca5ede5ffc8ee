import SourceMarks.Text.Basic

/-! Regular expressions over bytes, as far as glob patterns need them, and the matches they have. -/

namespace SourceMarks.Glob

inductive Expression
  /-- Nothing at all. -/
  | empty
  /-- One byte of a class. -/
  | byte (ok : UInt8 → Bool)
  /-- Any number of bytes of a class. -/
  | run (ok : UInt8 → Bool)
  | seq (first second : Expression)
  | alt (one other : Expression)

namespace Expression

/-- Whether the expression is written as nothing. -/
def isEmpty : Expression → Bool
  | empty => true
  | _ => false

/-- One after the other; what is written as nothing leaves no trace. -/
def andThen (a b : Expression) : Expression :=
  if a.isEmpty then b else if b.isEmpty then a else seq a b

def sequence (es : List Expression) : Expression := es.foldl andThen empty

/-- Any of them; nothing at all if there is none. -/
def anyOf : List Expression → Expression
  | [] => empty
  | [e] => e
  | e :: next :: others => alt e (anyOf (next :: others))

def literal (t : Text) : Expression := sequence (t.bytes.map fun b => byte (· == b))

/-- What can be left after a run of bytes of a class. -/
def runRests (ok : UInt8 → Bool) : List UInt8 → List (List UInt8)
  | [] => [[]]
  | b :: rest => (b :: rest) :: if ok b then runRests ok rest else []

/-- What can be left of the bytes when the expression matches at their beginning. -/
def rests : Expression → List UInt8 → List (List UInt8)
  | empty, s => [s]
  | byte _, [] => []
  | byte ok, b :: rest => if ok b then [rest] else []
  | run ok, s => runRests ok s
  | seq a b, s => ((rests a s).flatMap (rests b)).eraseDups
  | alt a b, s => (rests a s ++ rests b s).eraseDups

def accepts (e : Expression) (s : List UInt8) : Bool := (e.rests s).contains []

end Expression
end SourceMarks.Glob
