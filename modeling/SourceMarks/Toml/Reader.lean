import SourceMarks.Toml.Table

/-! Reading TOML documents as JSON values. Values may be nested 79 deep. -/

namespace SourceMarks.Toml

def skipFiller : (comment : Bool) → Text → Except Problem Text
  | _, [] => .ok []
  | _, '\n' :: rest => skipFiller false rest
  | _, '\r' :: '\n' :: rest => skipFiller false rest
  | true, c :: rest => if isVisible c then skipFiller true rest else .error .malformed
  | false, c :: rest =>
    if isSpace c then skipFiller false rest
    else if c = '#' then skipFiller true rest
    else .ok (c :: rest)

/-- The step to the next line. Only blanks and a comment may be left of this one. -/
def endLine (t : Text) : Except Problem Text :=
  let rest := match skip t with
    | '#' :: more => more.dropWhile isVisible
    | more => more
  match rest with
  | [] => .ok []
  | '\n' :: more => .ok more
  | '\r' :: '\n' :: more => .ok more
  | _ => .error .malformed

def isBare (c : Char) : Bool := c.isAlphanum || c = '_' || c = '-'

def keyPart (t : Text) : Except Problem (Text × Text) :=
  match t with
  | '"' :: rest => basicBody rest
  | '\'' :: rest => literalBody rest
  | t =>
    let part := t.takeWhile isBare
    if part.isEmpty then .error .malformed else .ok (part, t.dropWhile isBare)

/-- The parts of a dotted key; blanks around them do not matter. The fuel bounds their number. -/
def keyPath : (fuel : Nat) → Text → Except Problem (List Text × Text)
  | 0, _ => .error .tooDeep
  | fuel + 1, t => do
    let (part, rest) ← keyPart (skip t)
    match skip rest with
    | '.' :: more =>
      let (parts, rest) ← keyPath fuel more
      .ok (part :: parts, rest)
    | more => .ok ([part], more)

/-- A key as the path to its table and its last part. -/
def key (t : Text) : Except Problem (List Text × Text × Text) := do
  let (parts, rest) ← keyPath 79 t
  match parts.getLast? with
  | none => .error .malformed
  | some last => .ok (parts.dropLast, last, rest)

def afterEquals (t : Text) : Except Problem Text :=
  match t with
  | '=' :: rest => .ok (skip rest)
  | _ => .error .malformed

def items (read : Text → Except Problem (Json × Text)) :
    (fuel : Nat) → Text → Except Problem (List Json × Text)
  | 0, _ => .error .malformed
  | fuel + 1, t => do
    match ← skipFiller false t with
    | ']' :: rest => .ok ([], rest)
    | more =>
      let (v, rest) ← read more
      match ← skipFiller false rest with
      | ']' :: rest => .ok ([v], rest)
      | ',' :: rest =>
        let (others, rest) ← items read fuel rest
        .ok (v :: others, rest)
      | _ => .error .malformed

/-- The fields of a table in braces, after its first brace or a comma. -/
def inlineFields (read : Text → Except Problem (Json × Text)) :
    (fuel : Nat) → Entries → Text → Except Problem (Entries × Text)
  | 0, _, _ => .error .malformed
  | fuel + 1, es, t => do
    let (path, last, rest) ← key t
    let (v, rest) ← read (← afterEquals rest)
    let es ← es.define path last v
    match skip rest with
    | '\x7d' :: rest => .ok (es, rest)
    | ',' :: rest => inlineFields read fuel es rest
    | _ => .error .malformed

/-- A value, with at most `depth - 1` arrays and tables around its innermost parts. -/
def value : (depth : Nat) → Text → Except Problem (Json × Text)
  | 0, _ => .error .tooDeep
  | depth + 1, t =>
    match t with
    | '[' :: rest =>
      if depth = 0 then .error .tooDeep
      else (items (value depth) (rest.length + 1) rest).map fun p => (.array p.1, p.2)
    | '\x7b' :: rest =>
      if depth = 0 then .error .tooDeep
      else
        match skip rest with
        | '\x7d' :: rest => .ok (.object [], rest)
        | more =>
          (inlineFields (value depth) (more.length + 1) [] more).map fun p =>
            (.object (fieldsOf p.1), p.2)
    | 't' :: 'r' :: 'u' :: 'e' :: rest => .ok (.bool true, rest)
    | 'f' :: 'a' :: 'l' :: 's' :: 'e' :: rest => .ok (.bool false, rest)
    | '"' :: rest => (string ('"' :: rest)).map fun p => (.string p.1, p.2)
    | '\'' :: rest => (string ('\'' :: rest)).map fun p => (.string p.1, p.2)
    | t => numberOrMoment t

/-- The brackets after the key of a header. -/
def afterHeader (many : Bool) (t : Text) : Except Problem Text :=
  match many, t with
  | false, ']' :: rest => endLine rest
  | true, ']' :: ']' :: rest => endLine rest
  | _, _ => .error .malformed

/-- Reads line by line. The fuel bounds the number of lines. -/
def documentFrom : (fuel : Nat) → Document → Text → Except Problem Document
  | 0, d, _ => .ok d
  | fuel + 1, d, t =>
    match skip t with
    | [] => .ok d
    | '[' :: '[' :: rest => do
      let (path, last, rest) ← key rest
      let rest ← afterHeader true rest
      documentFrom fuel (← d.openTable path last true) rest
    | '[' :: rest => do
      let (path, last, rest) ← key rest
      let rest ← afterHeader false rest
      documentFrom fuel (← d.openTable path last false) rest
    | c :: rest =>
      if c = '#' || c = '\n' || c = '\r' then do
        documentFrom fuel d (← endLine (c :: rest))
      else do
        let (path, last, rest) ← key (c :: rest)
        let (v, rest) ← value 80 (← afterEquals rest)
        let rest ← endLine rest
        documentFrom fuel (← d.define path last v) rest

/-- The document in a text, as an object. A byte order mark at the beginning does not matter. -/
def parse (text : Text) : Except Problem Json := do
  let t := if text.head? = some '\uFEFF' then text.drop 1 else text
  let d ← documentFrom (t.length + 1) .initial t
  let root ← d.close
  .ok (.object (fieldsOf root))

end SourceMarks.Toml
