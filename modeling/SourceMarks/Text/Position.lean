import SourceMarks.Text.Basic

/-! Where a place in a text is: its line and its column, both counted from one. -/

namespace SourceMarks.Text

/-- The beginning of a text that fits into a number of bytes. -/
def upTo : Text → Nat → Text
  | [], _ => []
  | c :: rest, n => if c.utf8Size ≤ n then c :: upTo rest (n - c.utf8Size) else []

/-- The line on which the text `before` ends. -/
def lineAfter (before : Text) : Nat := before.count '\n' + 1

/-- The column at which the text `before` ends, in characters. -/
def columnAfter (before : Text) : Nat :=
  (before.reverse.takeWhile (fun c => c != '\n')).length + 1

def lineOf (text : Text) (offset : Nat) : Nat := lineAfter (text.upTo offset)

/-- The column of a byte offset, in characters. -/
def columnOf (text : Text) (offset : Nat) : Nat := columnAfter (text.upTo offset)

end SourceMarks.Text
