import SourceMarks.Json.Fault

/-!
Reading JSON values from a text. Every reading function returns what it read with the rest of the
text. Lists and objects may be nested 127 deep.
-/

namespace SourceMarks.Json

def isSpace (c : Char) : Bool := c = ' ' || c = '\n' || c = '\t' || c = '\r'

def skip (t : Text) : Text := t.dropWhile isSpace

def hexValue? (c : Char) : Option Nat :=
  if '0' ≤ c && c ≤ '9' then some (c.toNat - 48)
  else if 'a' ≤ c && c ≤ 'f' then some (c.toNat - 87)
  else if 'A' ≤ c && c ≤ 'F' then some (c.toNat - 55)
  else none

def hexValue4? (a b c d : Char) : Option Nat :=
  match hexValue? a, hexValue? b, hexValue? c, hexValue? d with
  | some a, some b, some c, some d => some (((a * 16 + b) * 16 + c) * 16 + d)
  | _, _, _, _ => none

/-- The character of a two-character escape. -/
def escaped? (c : Char) : Option Char :=
  if c = '"' || c = '\\' || c = '/' then some c
  else if c = 'b' then some '\x08'
  else if c = 'f' then some '\x0c'
  else if c = 'n' then some '\n'
  else if c = 'r' then some '\r'
  else if c = 't' then some '\t'
  else none

/-- Stops at a code of four digits that the text `code` does not begin with. -/
def stopInCode (code : Text) : Except Stop α :=
  if code.byteLength < 4 then stop .endInString [] else .error ⟨.badEscape, code, 4⟩

/-- Whether a code unit is the first, or the second, half of a pair. -/
def isHighHalf (n : Nat) : Bool := 0xD800 ≤ n && n ≤ 0xDBFF

def isLowHalf (n : Nat) : Bool := 0xDC00 ≤ n && n ≤ 0xDFFF

def consTo (c : Char) (r : Except Stop (Text × Text)) : Except Stop (Text × Text) :=
  r.map fun p => (c :: p.1, p.2)

/-- The rest of a string, after its opening quote. -/
def stringBody : Text → Except Stop (Text × Text)
  | [] => stop .endInString []
  | '"' :: rest => .ok ([], rest)
  | ['\\'] => stop .endInString []
  | '\\' :: 'u' :: a :: b :: c :: d :: rest =>
    match hexValue4? a b c d with
    | none => stopInCode (a :: b :: c :: d :: rest)
    | some n =>
      if isLowHalf n then stop .loneSurrogate rest
      else if isHighHalf n then
        match rest with
        | [] => stop .endInString []
        | ['\\'] => stop .endInString []
        | '\\' :: 'u' :: e :: f :: g :: h :: more =>
          match hexValue4? e f g h with
          | none => stopInCode (e :: f :: g :: h :: more)
          | some low =>
            if isLowHalf low then
              consTo (Char.ofNat (0x10000 + (n - 0xD800) * 0x400 + (low - 0xDC00)))
                (stringBody more)
            else stop .loneSurrogate more
        | '\\' :: 'u' :: code => stopInCode code
        | '\\' :: more => stopAt .brokenSurrogate more
        | more => stopAt .brokenSurrogate more
      else consTo (Char.ofNat n) (stringBody rest)
  | '\\' :: 'u' :: code => stopInCode code
  | '\\' :: c :: rest =>
    match escaped? c with
    | some d => consTo d (stringBody rest)
    | none => stopAt .badEscape (c :: rest)
  | c :: rest =>
    if c.toNat < 32 then stop .controlCharacter rest else consTo c (stringBody rest)

/-- The value of a run of digits, after the digits read before it. -/
def digitsValue (before : Nat) (digits : Text) : Nat :=
  digits.foldl (fun n c => n * 10 + (c.toNat - 48)) before

/-- The digits of a run that keep the value below `2 ^ 64`, and the number of those left over. -/
def fitting (before : Nat) : Text → Nat × Nat
  | [] => (before, 0)
  | c :: rest =>
    let next := before * 10 + (c.toNat - 48)
    if next < Nat.pow 2 64 then fitting next rest else (before, rest.length + 1)

def digitRun (t : Text) : Text × Text := (t.takeWhile Char.isDigit, t.dropWhile Char.isDigit)

def scientific (negative : Bool) (significand : Nat) (exponent : Int) (rest : Text) :
    Except Stop (Number × Text) :=
  match Binary64.ofScientific? negative significand exponent with
  | some x => .ok (.real x, rest)
  | none => stop .hugeNumber rest

/-- The exponent part, after its letter. Exponents that do not fit into 32 bits are beyond any
number. -/
def exponentPart (negative : Bool) (significand : Nat) (exponent : Int) (t : Text) :
    Except Stop (Number × Text) :=
  let (down, digits) : Bool × Text := match t with
    | '+' :: more => (false, more)
    | '-' :: more => (true, more)
    | more => (false, more)
  match digits with
  | [] => stop .endInValue []
  | c :: more =>
    if c.isDigit then
      let (run, rest) := digitRun (c :: more)
      let size := digitsValue 0 run
      if size < Nat.pow 2 31 then
        scientific negative significand (if down then exponent - size else exponent + size) rest
      else if significand ≠ 0 && !down then
        stop .hugeNumber (run.drop (overflowAt 0 0 run) ++ rest)
      else scientific negative 0 0 rest
    else stopAt .badNumber (c :: more)
where
  /-- How many digits are read when the value leaves 32 bits. -/
  overflowAt (count value : Nat) : Text → Nat
    | [] => count
    | c :: rest =>
      let next := value * 10 + (c.toNat - 48)
      if next < Nat.pow 2 31 then overflowAt (count + 1) next rest else count + 1

def fractionPart (negative : Bool) (significand : Nat) (exponent : Int) (t : Text) :
    Except Stop (Number × Text) :=
  let (run, rest) := digitRun t
  if run.isEmpty then
    match rest with
    | [] => stop .endInValue []
    | more => stopAt .badNumber more
  else
    let (value, dropped) := fitting significand run
    let exponent := exponent - ((run.length - dropped : Nat) : Int)
    match rest with
    | 'e' :: more => exponentPart negative value exponent more
    | 'E' :: more => exponentPart negative value exponent more
    | more => scientific negative value exponent more

/-- A number after its sign. Whole numbers beyond 64 bits, and minus zero, are not kept exactly. -/
def numberBody (negative : Bool) : Text → Except Stop (Number × Text)
  | [] => stop .endInValue []
  | c :: t =>
    if !c.isDigit then stopAt .badNumber (c :: t)
    else
      let (run, rest) := if c = '0' then (['0'], t) else digitRun (c :: t)
      let (value, dropped) := fitting 0 run
      match rest with
      | '.' :: more => fractionPart negative value dropped more
      | 'e' :: more => exponentPart negative value dropped more
      | 'E' :: more => exponentPart negative value dropped more
      | more =>
        if c = '0' && more.head?.any Char.isDigit then stopAt .badNumber more
        else if dropped ≠ 0 then scientific negative value dropped more
        else if !negative then .ok (.natural value, more)
        else if value = 0 || Nat.pow 2 63 < value then scientific true value 0 more
        else .ok (.negative value, more)

/-- The rest of a word such as `null`, after its first letter. -/
def word (value : α) : (letters text : Text) → Except Stop (α × Text)
  | [], rest => .ok (value, rest)
  | _ :: _, [] => stop .endInValue []
  | a :: letters, c :: rest =>
    if a = c then word value letters rest else stopAt .noWord (c :: rest)

inductive Next
  | done (rest : Text)
  | more (rest : Text)

def nextItem (first : Bool) (t : Text) : Except Stop Next :=
  match skip t with
  | [] => stop .endInList []
  | ']' :: rest => .ok (.done rest)
  | c :: rest =>
    if first then .ok (.more (c :: rest))
    else if c = ',' then
      match skip rest with
      | [] => stop .endInValue []
      | ']' :: more => stopAt .trailingComma (']' :: more)
      | more => .ok (.more more)
    else stopAt .noListEnd (c :: rest)

/-- The step to the next name of an object, past its opening quote, or past the end. -/
def nextKey (first : Bool) (t : Text) : Except Stop Next :=
  match skip t with
  | [] => stop .endInObject []
  | '\x7d' :: rest => .ok (.done rest)
  | c :: rest =>
    if first then
      if c = '"' then .ok (.more rest) else stopAt .keyNotString (c :: rest)
    else if c = ',' then
      match skip rest with
      | [] => stop .endInValue []
      | '"' :: more => .ok (.more more)
      | '\x7d' :: more => stopAt .trailingComma ('\x7d' :: more)
      | more => stopAt .keyNotString more
    else stopAt .noObjectEnd (c :: rest)

def afterColon (t : Text) : Except Stop Text :=
  match skip t with
  | [] => stop .endInObject []
  | ':' :: rest => .ok rest
  | more => stopAt .noColon more

/-- The items of a list, after its bracket. The fuel bounds their number. -/
def items (read : Text → Except Stop (α × Text)) :
    (fuel : Nat) → (first : Bool) → Text → Except Stop (List α × Text)
  | 0, _, t => stop .endInList t
  | fuel + 1, first, t => do
    match ← nextItem first t with
    | .done rest => .ok ([], rest)
    | .more rest =>
      let (item, rest) ← read rest
      let (others, rest) ← items read fuel false rest
      .ok (item :: others, rest)

def fields (read : Text → Except Stop (α × Text)) :
    (fuel : Nat) → (first : Bool) → Text → Except Stop (List (Text × α) × Text)
  | 0, _, t => stop .endInObject t
  | fuel + 1, first, t => do
    match ← nextKey first t with
    | .done rest => .ok ([], rest)
    | .more rest =>
      let (key, rest) ← stringBody rest
      let rest ← afterColon rest
      let (value, rest) ← read rest
      let (others, rest) ← fields read fuel false rest
      .ok ((key, value) :: others, rest)

/-- A value, with at most `depth - 1` lists and objects around its innermost parts. The fields of
an object are sorted by name, and the last field of a name counts. -/
def value : (depth : Nat) → Text → Except Stop (Json × Text)
  | 0, t => stopAt .tooDeep (skip t)
  | depth + 1, t =>
    match skip t with
    | [] => stop .endInValue []
    | 'n' :: rest => word null ['u', 'l', 'l'] rest
    | 't' :: rest => word (bool true) ['r', 'u', 'e'] rest
    | 'f' :: rest => word (bool false) ['a', 'l', 's', 'e'] rest
    | '-' :: rest => do
      let (n, rest) ← numberBody true rest
      .ok (number n, rest)
    | '"' :: rest => do
      let (s, rest) ← stringBody rest
      .ok (string s, rest)
    | '[' :: rest =>
      if depth = 0 then stopAt .tooDeep ('[' :: rest)
      else do
        let (all, rest) ← items (value depth) (rest.length + 1) true rest
        .ok (array all, rest)
    | '\x7b' :: rest =>
      if depth = 0 then stopAt .tooDeep ('\x7b' :: rest)
      else do
        let (all, rest) ← fields (value depth) (rest.length + 1) true rest
        .ok (object (all.foldl (fun sorted f => putField f.1 f.2 sorted) []), rest)
    | c :: rest =>
      if c.isDigit then do
        let (n, rest) ← numberBody false (c :: rest)
        .ok (number n, rest)
      else stopAt .noValue (c :: rest)

/-- Reads a whole text, of which only blanks may be left. -/
def whole (read : Text → Except Stop (α × Text)) (text : Text) : Except Fault α :=
  match read text with
  | .error s => .error (s.fault text)
  | .ok (v, rest) =>
    match skip rest with
    | [] => .ok v
    | more => .error (Stop.fault text ⟨.trailingCharacters, more, 1⟩)

def parse (text : Text) : Except Fault Json := whole (value 128) text

end SourceMarks.Json
