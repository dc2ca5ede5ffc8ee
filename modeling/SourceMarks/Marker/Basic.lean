import SourceMarks.Text.Basic

/-!
Markers and the forms in which they are written. A load marker holds its payload in parentheses, on
one line; a cache marker takes the whole next line as its payload.
-/

namespace SourceMarks

inductive Marker
  | load
  | noCache
  deriving DecidableEq, Repr

/-- A marker as it is written, with the part that it is about. -/
structure Form where
  written : Text
  payload : Text
  deriving DecidableEq, Repr

namespace Marker

def toText : Marker → Text
  | load => "//@Load"
  | noCache => "//@NoCache"

def loadOpening : Text := ['/', '/', '@', 'L', 'o', 'a', 'd', '(']

def emptyLoad : Text := ['/', '/', '@', 'L', 'o', 'a', 'd', '(', ')']

/-- The cache marker without the line it is about. -/
def bareNoCache : Text := ['/', '/', '@', 'N', 'o', 'C', 'a', 'c', 'h', 'e', '(', ')']

/-- Whether a character stays on the line. -/
def inLine (c : Char) : Bool := c != '\r' && c != '\n'

def inPayload (c : Char) : Bool := c != ')' && inLine c

def loadForm? (t : Text) : Option Form :=
  match Text.after? loadOpening t with
  | none => none
  | some inner =>
    let payload := inner.takeWhile inPayload
    match inner.dropWhile inPayload with
    | ')' :: _ =>
      if payload.isEmpty then none else some ⟨loadOpening ++ payload ++ [')'], payload⟩
    | _ => none

def noCacheForm? (t : Text) : Option Form :=
  match Text.after? bareNoCache t with
  | some ('\n' :: next) =>
    let payload := next.takeWhile inLine
    some ⟨bareNoCache ++ '\n' :: payload, payload⟩
  | some ('\r' :: '\n' :: next) =>
    let payload := next.takeWhile inLine
    some ⟨bareNoCache ++ '\r' :: '\n' :: payload, payload⟩
  | _ => none

/-- The form of a marker at the beginning of a text. -/
def form? : Marker → Text → Option Form
  | load => loadForm?
  | noCache => noCacheForm?

end Marker

/-- A piece of a text: a character outside all forms, or a form. -/
inductive Piece
  | plain (c : Char)
  | form (f : Form)
  deriving DecidableEq, Repr

/-- A text cut into its pieces from the left. Where a form begins it is taken whole. -/
def Marker.pieces (m : Marker) : Text → List Piece
  | [] => []
  | c :: rest =>
    match m.form? (c :: rest) with
    | some f => .form f :: m.pieces (rest.drop (f.written.length - 1))
    | none => .plain c :: m.pieces rest
termination_by t => t.length

end SourceMarks
