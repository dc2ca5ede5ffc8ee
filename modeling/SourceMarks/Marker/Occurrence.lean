import SourceMarks.Marker.Basic
import SourceMarks.Text.Position

/-! The occurrences of a marker in a text, with their positions, and replacing them. -/

namespace SourceMarks

/-- A marker found in a text, with the byte offsets where it starts and stops. -/
structure Occurrence where
  marker : Marker
  payload : Text
  start : Nat
  stop : Nat
  line : Nat
  deriving DecidableEq, Repr

namespace Marker

def occurrence (m : Marker) (f : Form) (offset line : Nat) : Occurrence :=
  ⟨m, f.payload, offset, offset + f.written.byteLength, line⟩

/-- The occurrences among pieces that begin at an offset and on a line. -/
def occurrencesFrom (m : Marker) : (offset line : Nat) → List Piece → List Occurrence
  | _, _, [] => []
  | offset, line, .plain c :: rest =>
    m.occurrencesFrom (offset + c.utf8Size) (if c = '\n' then line + 1 else line) rest
  | offset, line, .form f :: rest =>
    m.occurrence f offset line ::
      m.occurrencesFrom (offset + f.written.byteLength) (line + f.written.count '\n') rest

def scan (m : Marker) (text : Text) : List Occurrence := m.occurrencesFrom 0 1 (m.pieces text)

/-- Puts new texts in the place of the forms among pieces. -/
def replaceFrom {μ : Type → Type} [Monad μ] (m : Marker) (new : Occurrence → μ Text) :
    (offset line : Nat) → List Piece → μ Text
  | _, _, [] => pure []
  | offset, line, .plain c :: rest => do
    let others ← m.replaceFrom new (offset + c.utf8Size) (if c = '\n' then line + 1 else line) rest
    pure (c :: others)
  | offset, line, .form f :: rest => do
    let text ← new (m.occurrence f offset line)
    let others ← m.replaceFrom new (offset + f.written.byteLength)
      (line + f.written.count '\n') rest
    pure (text ++ others)

/-- Puts a new text in the place of every occurrence of a marker and keeps all else. -/
def replace {μ : Type → Type} [Monad μ] (m : Marker) (text : Text) (new : Occurrence → μ Text) :
    μ Text :=
  m.replaceFrom new 0 1 (m.pieces text)

/-- The line of the first load marker without a payload. -/
def emptyLoadLine? (text : Text) : Option Nat :=
  (Text.before? emptyLoad text).map Text.lineAfter

end Marker
end SourceMarks
