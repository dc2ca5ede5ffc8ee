import SourceMarks.Fault
import SourceMarks.Text.Blank

/-!
Targets of cache markers: a line of code that holds a path. A version is put behind the last segment
of the path, as part of its query. A comment at the end of the line is left alone.
-/

namespace SourceMarks.Version

/-- Whether the version of a target goes behind its extension or behind its last segment. -/
inductive Kind
  | extension
  | path
  deriving DecidableEq, Repr

def Kind.separator : Kind → Char
  | extension => '.'
  | path => '/'

/-- Whether a character can be part of a segment that is versioned. -/
def isTokenChar (c : Char) : Bool := c.isAlphanum || c = '.' || c = '_' || c = '-'

def isQuote (c : Char) : Bool := c = '\'' || c = '"' || c = '\x60'

/-- Whether a character at the end of a line of code does not belong to its path. -/
def isDelimiter (c : Char) : Bool :=
  isBlank c || isQuote c || c = ',' || c = ';' || c = ')'

/-- Where a reading of a line stands: in which quotes, whether behind a backslash there, and after
which character. -/
structure LineState where
  quote : Option Char
  escaped : Bool
  prev : Option Char
  deriving DecidableEq, Repr

def LineState.initial : LineState := ⟨none, false, none⟩

def LineState.step (s : LineState) (c : Char) : LineState :=
  match s.quote with
  | some q =>
    if s.escaped then ⟨some q, false, some c⟩
    else if c = '\\' then ⟨some q, true, some c⟩
    else if c = q then ⟨none, false, some c⟩
    else ⟨some q, false, some c⟩
  | none => if isQuote c then ⟨some c, s.escaped, some c⟩ else ⟨none, s.escaped, some c⟩

/-- Whether a line comment may begin here: outside quotes, at the beginning of the line or after a
blank, a comma or a semicolon. -/
def LineState.opensComment (s : LineState) : Bool :=
  s.quote.isNone &&
    match s.prev with
    | none => true
    | some p => isBlank p || p = ',' || p = ';'

/-- The code before a line comment, and the comment; none if there is no comment. -/
def cutComment? : LineState → Text → Option (Text × Text)
  | _, [] => none
  | s, c :: rest =>
    if c = '/' && rest.head? = some '/' && s.opensComment then some ([], c :: rest)
    else (cutComment? (s.step c) rest).map fun p => (c :: p.1, p.2)

/-- A line as its code and its comment. The blanks before a comment belong to it. -/
def splitComment (line : Text) : Text × Text :=
  match cutComment? .initial line with
  | none => (line, [])
  | some (code, _) =>
    let code := code.trimEnd
    (code, line.drop code.length)

def cutLast (separator : Char) (t : Text) : Text × Text := Text.cutAfterLast (· = separator) t

def opensQuery (c : Char) : Bool := c = '?' || c = '#'

/-- Code as a path, and what follows it from a query or fragment in its last segment on. -/
def splitQuery (code : Text) : Text × Text :=
  let core := Text.dropEnd isDelimiter code
  let (front, segment) := cutLast '/' core
  if segment.any opensQuery then
    let path := front ++ segment.takeWhile (!opensQuery ·)
    (path, code.drop path.length)
  else (code, [])

def hasExtension (segment : Text) : Bool := segment.dropLast.contains '.'

def classify (target : Text) : Except Fault Kind :=
  let core := Text.dropEnd isDelimiter (splitQuery (splitComment target).1).1
  if hasExtension (cutLast '/' core).2 then .ok .extension
  else if core.contains '/' then .ok .path
  else .error (.unversionable target.trim)

/-- A version in the query that follows a path. -/
def intoQuery (query token : Text) : Text :=
  let stays := fun c => !(c = '#' || isDelimiter c)
  let own := query.takeWhile stays
  let joiner : Text := if own.isEmpty then [] else ['&']
  '?' :: (own ++ joiner ++ ['v', '='] ++ token ++ query.dropWhile stays)

/-- A version behind the last segment of a path. -/
def intoSegment (segment token : Text) : Text :=
  segment.takeWhile isTokenChar ++ ['?', 'v', '='] ++ token ++ segment.dropWhile isTokenChar

/-- The target line with a version and without the blanks at its beginning. -/
def version (target token : Text) : Except Fault Text := do
  let kind ← classify target
  let (code, comment) := splitComment target
  let (path, rest) := splitQuery code
  let (front, last) := cutLast kind.separator path
  match rest with
  | '?' :: query => .ok ((front ++ last).trimStart ++ intoQuery query token ++ comment)
  | _ => .ok ((front.trimStart ++ intoSegment last token) ++ rest ++ comment)

end SourceMarks.Version
