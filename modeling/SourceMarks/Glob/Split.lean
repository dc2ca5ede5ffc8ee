import SourceMarks.Text.Raw

/-! Which part of a pattern is plain text, and which names its wildcards may reach. -/

namespace SourceMarks.Glob

/-- Whether a character makes a segment match more than its own text. -/
def isMagic (c : Char) : Bool := c = '*' || c = '?' || c = '[' || c = '\x7b'

def hasMagic (t : Text) : Bool := t.any isMagic

/-- The pattern cut into its leading plain folders, without the separators at their end, and the
rest. -/
def splitStatic (pattern : Text) : Text × Text :=
  let plain := (pattern.split '/').takeWhile fun s => !hasMagic s
  let cut := (plain.flatMap fun s => s ++ ['/']).length
  let lead := Text.dropEnd (· = '/') (pattern.take cut)
  let rest := pattern.drop cut
  if lead.isEmpty && pattern.head? = some '/' then (['/'], rest) else (lead, rest)

/-- A path below a lead, in the form of the pattern. -/
def joinLead (lead relative : Text) : Text :=
  if lead.isEmpty then relative
  else if lead.getLast? = some '/' then lead ++ relative
  else lead ++ '/' :: relative

/-- The segments of a pattern's rest, and how deep they reach. -/
structure Reach where
  segments : List Text
  /-- Some segment may stand for any number of folders. -/
  unbounded : Bool
  deriving DecidableEq, Repr

def hasDoubleStar : Text → Bool
  | '*' :: '*' :: _ => true
  | _ :: rest => hasDoubleStar rest
  | [] => false

def reachOf (rest : Text) : Reach := ⟨rest.split '/', hasDoubleStar rest⟩

def isDotted (segment : Text) : Bool := segment.head? = some '.'

/-- Whether a name begins with a point. Bytes that encode no text are never hidden. -/
def isHidden (name : RawText) : Bool := name.toText?.any isDotted

/-- Whether a hidden name at some depth may match: the segment for this depth begins with a point
itself. Where depths are not bounded, any hidden name among the segments admits it. -/
def Reach.admitsHidden (r : Reach) (depth : Nat) : Bool :=
  if r.unbounded then r.segments.any fun s => isDotted s && s != ['.'] && s != ['.', '.']
  else
    match depth with
    | 0 => false
    | d + 1 => r.segments[d]?.any isDotted

/-- Whether an entry with this name at this depth is looked at. -/
def Reach.admits (r : Reach) (depth : Nat) (name : RawText) : Bool :=
  (r.unbounded || depth ≤ r.segments.length) && (!isHidden name || r.admitsHidden depth)

end SourceMarks.Glob
