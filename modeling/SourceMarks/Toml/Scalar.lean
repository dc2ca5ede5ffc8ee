import SourceMarks.Json.Reader

/-!
The scalar values of TOML: strings in four forms, numbers, and points in time. Reading functions
return what they read with the rest of the text.
-/

namespace SourceMarks.Toml

inductive Problem
  | malformed
  | badEscape
  | outOfRange
  | tooDeep
  | repeatedKey (key : Text)
  | notTable (key : Text)
  deriving DecidableEq, Repr

def Problem.message : Problem → Text
  | malformed => "the text is not valid TOML"
  | badEscape => "invalid escape sequence"
  | outOfRange => "number out of range"
  | tooDeep => "values are nested too deep"
  | repeatedKey key => "duplicate key `".toList ++ key ++ ['`']
  | notTable key => "key `".toList ++ key ++ "` is not a table".toList

def isSpace (c : Char) : Bool := c = ' ' || c = '\t'

def skip (t : Text) : Text := t.dropWhile isSpace

/-- A character that may stand in strings and comments as it is. -/
def isVisible (c : Char) : Bool := c = '\t' || (32 ≤ c.toNat && c.toNat ≠ 127)

def hexNumber? (digits : Text) : Option Nat :=
  digits.foldlM (fun n c => (Json.hexValue? c).map (n * 16 + ·)) 0

def scalar? (n : Nat) : Option Char := if n.isValidChar then some (Char.ofNat n) else none

/-- The character of a two-character escape. -/
def escaped? (c : Char) : Option Char :=
  if c = '"' || c = '\\' then some c
  else if c = 'b' then some '\x08'
  else if c = 't' then some '\t'
  else if c = 'n' then some '\n'
  else if c = 'f' then some '\x0c'
  else if c = 'r' then some '\r'
  else none

def consTo (c : Char) (r : Except Problem (Text × Text)) : Except Problem (Text × Text) :=
  r.map fun p => (c :: p.1, p.2)

def basicBody : Text → Except Problem (Text × Text)
  | [] => .error .malformed
  | '"' :: rest => .ok ([], rest)
  | '\\' :: 'u' :: a :: b :: c :: d :: rest =>
    match (hexNumber? [a, b, c, d]).bind scalar? with
    | some x => consTo x (basicBody rest)
    | none => .error .badEscape
  | '\\' :: 'U' :: a :: b :: c :: d :: e :: f :: g :: h :: rest =>
    match (hexNumber? [a, b, c, d, e, f, g, h]).bind scalar? with
    | some x => consTo x (basicBody rest)
    | none => .error .badEscape
  | '\\' :: c :: rest =>
    match escaped? c with
    | some x => consTo x (basicBody rest)
    | none => .error .badEscape
  | c :: rest => if isVisible c && c ≠ '\\' then consTo c (basicBody rest) else .error .malformed

def literalBody : Text → Except Problem (Text × Text)
  | [] => .error .malformed
  | '\'' :: rest => .ok ([], rest)
  | c :: rest => if isVisible c then consTo c (literalBody rest) else .error .malformed

def lineEnds (t : Text) : Bool :=
  match skip t with
  | '\n' :: _ => true
  | '\r' :: '\n' :: _ => true
  | _ => false

/-- The rest of a string in three double quotes. After a backslash at the end of a line, blanks and
line breaks are skipped; `trimming` tells that this goes on. -/
def longBasicBody (trimming : Bool) : Text → Except Problem (Text × Text)
  | [] => .error .malformed
  | '"' :: '"' :: '"' :: '"' :: '"' :: rest => .ok (['"', '"'], rest)
  | '"' :: '"' :: '"' :: '"' :: rest => .ok (['"'], rest)
  | '"' :: '"' :: '"' :: rest => .ok ([], rest)
  | '\\' :: 'u' :: a :: b :: c :: d :: rest =>
    match (hexNumber? [a, b, c, d]).bind scalar? with
    | some x => consTo x (longBasicBody false rest)
    | none => .error .badEscape
  | '\\' :: 'U' :: a :: b :: c :: d :: e :: f :: g :: h :: rest =>
    match (hexNumber? [a, b, c, d, e, f, g, h]).bind scalar? with
    | some x => consTo x (longBasicBody false rest)
    | none => .error .badEscape
  | '\\' :: c :: rest =>
    if lineEnds (c :: rest) then longBasicBody true (c :: rest)
    else
      match escaped? c with
      | some x => consTo x (longBasicBody false rest)
      | none => .error .badEscape
  | '\r' :: '\n' :: rest =>
    if trimming then longBasicBody true rest else consTo '\n' (longBasicBody false rest)
  | c :: rest =>
    if trimming && (isSpace c || c = '\n') then longBasicBody true rest
    else if (isVisible c && c ≠ '\\') || c = '\n' then consTo c (longBasicBody false rest)
    else .error .malformed

def longLiteralBody : Text → Except Problem (Text × Text)
  | [] => .error .malformed
  | '\'' :: '\'' :: '\'' :: '\'' :: '\'' :: rest => .ok (['\'', '\''], rest)
  | '\'' :: '\'' :: '\'' :: '\'' :: rest => .ok (['\''], rest)
  | '\'' :: '\'' :: '\'' :: rest => .ok ([], rest)
  | '\r' :: '\n' :: rest => consTo '\n' (longLiteralBody rest)
  | c :: rest =>
    if isVisible c || c = '\n' then consTo c (longLiteralBody rest) else .error .malformed

/-- A long string does not begin with the line break after its opening quotes. -/
def dropFirstBreak : Text → Text
  | '\n' :: rest => rest
  | '\r' :: '\n' :: rest => rest
  | t => t

def string (t : Text) : Except Problem (Text × Text) :=
  match t with
  | '"' :: '"' :: '"' :: rest => longBasicBody false (dropFirstBreak rest)
  | '"' :: rest => basicBody rest
  | '\'' :: '\'' :: '\'' :: rest => longLiteralBody (dropFirstBreak rest)
  | '\'' :: rest => literalBody rest
  | _ => .error .malformed

/-- The rest of a run of digits, which single underscores may separate; `digit` tells whether one
was read just now. -/
def digitRun (ok : Char → Bool) (digit : Bool) : Text → Except Problem (Text × Text)
  | [] => if digit then .ok ([], []) else .error .malformed
  | c :: rest =>
    if ok c then consTo c (digitRun ok true rest)
    else if c = '_' && digit then digitRun ok false rest
    else if digit then .ok ([], c :: rest)
    else .error .malformed

def baseValue (base : Nat) (digits : Text) : Nat :=
  digits.foldl (fun n c => n * base + (Json.hexValue? c).getD 0) 0

def wholeNumber (negative : Bool) (n : Nat) (rest : Text) : Except Problem (Json × Text) :=
  if negative && n ≠ 0 then
    if n ≤ Nat.pow 2 63 then .ok (.number (.negative n), rest) else .error .outOfRange
  else if n < Nat.pow 2 63 then .ok (.number (.natural n), rest)
  else .error .outOfRange

def basedNumber (base : Nat) (ok : Char → Bool) (t : Text) : Except Problem (Json × Text) := do
  let (digits, rest) ← digitRun ok false t
  wholeNumber false (baseValue base digits) rest

/-- A number with a fraction or an exponent. No setting takes one, so its value is not kept, but a
positive number beyond the largest of binary64 is refused. -/
def decimalNumber (negative : Bool) (digits : Text) (exponent : Int) (rest : Text) :
    Except Problem (Json × Text) :=
  let n := baseValue 10 digits
  let size := (digits.dropWhile (· = '0')).length + exponent
  let tooLarge :=
    if n = 0 || size < 300 then false
    else if 400 < size then true
    else (if 0 ≤ exponent then Binary64.ofRatio? false (n * Nat.pow 10 exponent.toNat) 1
      else Binary64.ofRatio? false n (Nat.pow 10 (-exponent).toNat)).isNone
  if tooLarge && !negative then .error .outOfRange
  else .ok (.number (.real ⟨negative, 0, -1074⟩), rest)

/-- The digits of a whole part: none may follow a leading zero. -/
def wholePart (t : Text) : Except Problem (Text × Text) :=
  match t with
  | '0' :: rest => .ok (['0'], rest)
  | t => digitRun Char.isDigit false t

def exponentPart (t : Text) : Except Problem (Int × Text) := do
  let (down, t) : Bool × Text := match t with
    | '-' :: rest => (true, rest)
    | '+' :: rest => (false, rest)
    | rest => (false, rest)
  let (digits, rest) ← digitRun Char.isDigit false t
  let n : Int := baseValue 10 digits
  .ok (if down then -n else n, rest)

def exponentTail (negative : Bool) (digits : Text) (shift : Nat) (t : Text) :
    Except Problem (Json × Text) :=
  if t.head? = some 'e' || t.head? = some 'E' then do
    let (n, rest) ← exponentPart (t.drop 1)
    decimalNumber negative digits (n - shift) rest
  else decimalNumber negative digits (-(shift : Int)) t

def unsignedNumber (negative : Bool) (t : Text) : Except Problem (Json × Text) :=
  match t with
  | 'i' :: 'n' :: 'f' :: rest => .ok (.number (.real ⟨negative, 0, -1074⟩), rest)
  | 'n' :: 'a' :: 'n' :: rest => .ok (.number (.real ⟨negative, 0, -1074⟩), rest)
  | t => do
    let (whole, rest) ← wholePart t
    match rest with
    | '.' :: more =>
      let (fraction, rest) ← digitRun Char.isDigit false more
      exponentTail negative (whole ++ fraction) fraction.length rest
    | more =>
      if more.head? = some 'e' || more.head? = some 'E' then exponentTail negative whole 0 more
      else wholeNumber negative (baseValue 10 whole) more

def number (t : Text) : Except Problem (Json × Text) :=
  match t with
  | '0' :: 'x' :: rest => basedNumber 16 (fun c => (Json.hexValue? c).isSome) rest
  | '0' :: 'o' :: rest => basedNumber 8 (fun c => '0' ≤ c && c ≤ '7') rest
  | '0' :: 'b' :: rest => basedNumber 2 (fun c => c = '0' || c = '1') rest
  | '-' :: rest => unsignedNumber true rest
  | '+' :: rest => unsignedNumber false rest
  | t => unsignedNumber false t

/-- A number of exactly so many digits, within bounds. -/
def fixed? (count low high : Nat) (t : Text) : Option (Nat × Text) :=
  let digits := t.take count
  let n := baseValue 10 digits
  if digits.length = count && digits.all Char.isDigit && low ≤ n && n ≤ high then
    some (n, t.drop count)
  else none

def past? (c : Char) : Text → Option Text
  | [] => none
  | d :: rest => if d = c then some rest else none

def isLeap (year : Nat) : Bool := (year % 4 = 0 && year % 100 ≠ 0) || year % 400 = 0

def daysIn (year month : Nat) : Nat :=
  if month = 2 then (if isLeap year then 29 else 28)
  else if month = 4 || month = 6 || month = 9 || month = 11 then 30
  else 31

def afterDate? (t : Text) : Option Text := do
  let (year, t) ← fixed? 4 0 9999 t
  let (month, t) ← fixed? 2 1 12 (← past? '-' t)
  let (_, t) ← fixed? 2 1 (daysIn year month) (← past? '-' t)
  some t

def afterTime? (t : Text) : Option Text := do
  let (_, t) ← fixed? 2 0 23 t
  let (_, t) ← fixed? 2 0 59 (← past? ':' t)
  let (_, t) ← fixed? 2 0 60 (← past? ':' t)
  match t with
  | '.' :: more =>
    if more.head?.any Char.isDigit then some (more.dropWhile Char.isDigit) else some t
  | _ => some t

/-- The rest after an offset from universal time, if there is one. -/
def afterOffset (t : Text) : Text :=
  match t with
  | 'Z' :: rest => rest
  | 'z' :: rest => rest
  | c :: rest =>
    if c = '+' || c = '-' then
      (do
        let (_, u) ← fixed? 2 0 23 rest
        let (_, u) ← fixed? 2 0 59 (← past? ':' u)
        some u).getD t
    else t
  | [] => []

def afterMoment? (t : Text) : Option Text :=
  match afterDate? t with
  | none => afterTime? t
  | some rest =>
    if rest.head?.any (fun c => c = 'T' || c = 't' || c = ' ') then
      match afterTime? (rest.drop 1) with
      | some more => some (afterOffset more)
      | none => some rest
    else some rest

def moment (written : Text) : Json := .object [("datetime", .string written)]

def numberOrMoment (t : Text) : Except Problem (Json × Text) :=
  match afterMoment? t with
  | some rest => .ok (moment (t.take (t.length - rest.length)), rest)
  | none => number t

end SourceMarks.Toml
