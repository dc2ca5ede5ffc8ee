import SourceMarks.Text.Basic

/-!
Texts as a file system keeps them: any bytes. Where they are no UTF-8 they stand for no text, but
they can be shown, with a sign of replacement for each piece that no character begins with.
-/

namespace SourceMarks

/-- A text in bytes, in UTF-8 or not. -/
abbrev RawText := Text UInt8

namespace Text

def decode? (b : ByteArray) : Option Text := b.utf8Decode?.map Array.toList

def encode (text : Text) : ByteArray := (String.ofList text).toUTF8

theorem decode?_encode (text : Text) : decode? (encode text) = some text := by
  have h : encode text = text.utf8Encode := by simp [encode]
  rw [h, decode?, List.utf8Decode?_utf8Encode]
  rfl

end Text

namespace RawText

def toText? (r : RawText) : Option Text := Text.decode? r.toByteArray

/-- Whether a byte may follow the first byte of a character of three or four bytes. -/
def mayFollow (first second : UInt8) : Bool :=
  if first = 0xE0 then 0xA0 ≤ second && second ≤ 0xBF
  else if first = 0xED then 0x80 ≤ second && second ≤ 0x9F
  else if first = 0xF0 then 0x90 ≤ second && second ≤ 0xBF
  else if first = 0xF4 then 0x80 ≤ second && second ≤ 0x8F
  else 0xE0 ≤ first && first ≤ 0xF4 && 0x80 ≤ second && second ≤ 0xBF

/-- How many bytes behind the first one belong to a character that is not completed. -/
def brokenTail (first : UInt8) : RawText → Nat
  | second :: third :: _ =>
    if mayFollow first second then
      if 0xF0 ≤ first && 0x80 ≤ third && third ≤ 0xBF then 2 else 1
    else 0
  | [second] => if mayFollow first second then 1 else 0
  | [] => 0

/-- The characters behind some bytes that are done with, each broken one replaced. -/
def mended : (skip : Nat) → RawText → Text
  | _, [] => []
  | skip + 1, _ :: rest => mended skip rest
  | 0, b :: rest =>
    match ByteArray.utf8DecodeChar? (b :: rest).toByteArray 0 with
    | some c => c :: mended (c.utf8Size - 1) rest
    | none => '\uFFFD' :: mended (brokenTail b rest) rest

/-- The text as it can be shown. -/
def shown (r : RawText) : Text := r.toText?.getD (mended 0 r)

end RawText
end SourceMarks
