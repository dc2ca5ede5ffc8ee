/-! Texts as lists of characters, or of other symbols: cutting, joining, trimming and measuring. -/

namespace SourceMarks

/-- A text, as the list of its symbols. -/
abbrev Text (α : Type := Char) := List α

instance : Coe String Text := ⟨String.toList⟩

namespace Text
variable {α : Type}

def ofNat (n : Nat) : Text := Nat.toDigits 10 n

/-- The length of the UTF-8 form in bytes. -/
def byteLength : Text → Nat
  | [] => 0
  | c :: rest => c.utf8Size + byteLength rest

def bytes (t : Text) : List UInt8 := t.flatMap String.utf8EncodeChar

/-- The pieces between the separators; there is always one more piece than separators. -/
def split [DecidableEq α] (sep : α) : Text α → List (Text α)
  | [] => [[]]
  | c :: rest =>
    if c = sep then [] :: split sep rest
    else
      match split sep rest with
      | [] => [[c]]
      | piece :: pieces => (c :: piece) :: pieces

/-- The pieces with a separator between neighbours. -/
def join (sep : Text α) : List (Text α) → Text α
  | [] => []
  | [piece] => piece
  | piece :: next :: pieces => piece ++ sep ++ join sep (next :: pieces)

/-- What follows `lead` in a text that begins with it. -/
def after? : (lead text : Text) → Option Text
  | [], text => some text
  | _ :: _, [] => none
  | a :: lead, c :: text => if a = c then after? lead text else none

/-- Drops the longest ending made of symbols in the class. -/
def dropEnd (p : α → Bool) : Text α → Text α
  | [] => []
  | c :: rest =>
    match dropEnd p rest with
    | [] => if p c then [] else [c]
    | kept => c :: kept

/-- Cuts after the last symbol in the class: what ends there, and what follows. -/
def cutAfterLast (p : α → Bool) : Text α → Text α × Text α
  | [] => ([], [])
  | c :: rest =>
    match cutAfterLast p rest with
    | ([], tail) => if p c then ([c], tail) else ([], c :: tail)
    | (front, tail) => (c :: front, tail)

/-- How often a text that cannot overlap itself occurs. -/
def countOf (needle : Text) : Text → Nat
  | [] => 0
  | c :: rest => (if (after? needle (c :: rest)).isSome then 1 else 0) + countOf needle rest

/-- The text before the first place where `needle` begins. -/
def before? (needle : Text) : Text → Option Text
  | [] => if needle.isEmpty then some [] else none
  | c :: rest =>
    if (after? needle (c :: rest)).isSome then some [] else (before? needle rest).map (c :: ·)

def dropBreak (line : Text) : Text :=
  match line.reverse with
  | '\n' :: '\r' :: rest => rest.reverse
  | '\n' :: rest => rest.reverse
  | _ => line

def brokenLines : Text → List Text
  | [] => []
  | c :: rest =>
    if c = '\n' then [c] :: brokenLines rest
    else
      match brokenLines rest with
      | [] => [[c]]
      | line :: lines => (c :: line) :: lines

/-- The lines without their line breaks, LF or CRLF; a break at the very end opens no new line. -/
def lines (t : Text) : List Text := (brokenLines t).map dropBreak

/-- The order of texts by their bytes, which is the order by code point. -/
def le : Text → Text → Bool
  | [], _ => true
  | _ :: _, [] => false
  | a :: as, b :: bs => if a = b then le as bs else a.toNat < b.toNat

def sort (ts : List Text) : List Text := ts.mergeSort le

end Text
end SourceMarks
