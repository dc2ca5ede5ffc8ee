import SourceMarks.Json.Reader

/-!
Shapes of JSON values. A text can be read under a shape, and a value can be fitted into one; either
way the result has every field of a record in the order of the shape, with fallbacks for what is
left out, and without the fields that the shape does not know.
-/

namespace SourceMarks.Json

mutual
inductive Shape
  | flag
  /-- A string; `wanted` names it in messages. -/
  | text (wanted : Text)
  /-- A natural number of 64 bits. -/
  | count
  /-- Null is allowed too. -/
  | optional (inner : Shape)
  | list (item : Shape)
  /-- An object, or a list of the values of its fields. -/
  | record (name : Text) (fields : Fields)
  /-- One of some names. -/
  | choice (names : List Text)

/-- The fields of a record, each with its shape and the value it has when it is left out. -/
inductive Fields
  | none
  | field (key : Text) (shape : Shape) (fallback : Option Json) (others : Fields)
end

def Fields.size : Fields → Nat
  | .none => 0
  | .field _ _ _ others => others.size + 1

def Shape.isOptional : Shape → Bool
  | .optional _ => true
  | _ => false

/-- What is wanted for a record in the form of a list. -/
def elementsOf (name : Text) (size : Nat) : Text :=
  "struct ".toList ++ name ++ " with ".toList ++ Text.ofNat size ++
    (if size = 1 then " element".toList else " elements".toList)

/-- Stops at a value that is not of the wanted kind. Scalars are read first. -/
def misplaced (wanted : Text) (t : Text) : Except Stop α :=
  match skip t with
  | [] => stop .endInValue []
  | 'n' :: rest => found .null (word () ['u', 'l', 'l'] rest)
  | 't' :: rest => found (.bool true) (word () ['r', 'u', 'e'] rest)
  | 'f' :: rest => found (.bool false) (word () ['a', 'l', 's', 'e'] rest)
  | '-' :: rest => do
    let (n, rest) ← numberBody true rest
    stop (.wrongType (.number n) wanted) rest
  | '"' :: rest => do
    let (s, rest) ← stringBody rest
    stop (.wrongType (.string s) wanted) rest
  | '[' :: rest => stop (.wrongType .sequence wanted) ('[' :: rest)
  | '\x7b' :: rest => stop (.wrongType .map wanted) ('\x7b' :: rest)
  | c :: rest =>
    if c.isDigit then do
      let (n, rest) ← numberBody false (c :: rest)
      stop (.wrongType (.number n) wanted) rest
    else stopAt .noValue (c :: rest)
where
  found (what : Found) : Except Stop (Unit × Text) → Except Stop α
    | .error s => .error s
    | .ok (_, rest) => stop (.wrongType what wanted) rest

def readFlag (t : Text) : Except Stop (Json × Text) :=
  match skip t with
  | 't' :: rest => word (bool true) ['r', 'u', 'e'] rest
  | 'f' :: rest => word (bool false) ['a', 'l', 's', 'e'] rest
  | more => misplaced "a boolean" more

def readText (wanted : Text) (t : Text) : Except Stop (Text × Text) :=
  match skip t with
  | '"' :: rest => stringBody rest
  | more => misplaced wanted more

def countOf (n : Number) (rest : Text) : Except Stop (Json × Text) :=
  match n with
  | .natural n => .ok (ofNat n, rest)
  | .negative n => stop (.wrongValue (.number (.negative n)) "usize") rest
  | .real x => stop (.wrongType (.number (.real x)) "usize") rest

def readCount (t : Text) : Except Stop (Json × Text) :=
  match skip t with
  | '-' :: rest => do
    let (n, rest) ← numberBody true rest
    countOf n rest
  | more =>
    if more.head?.any Char.isDigit then do
      let (n, rest) ← numberBody false more
      countOf n rest
    else misplaced "usize" more

def knownName (names : List Text) (name rest : Text) : Except Stop (Json × Text) :=
  if names.contains name then .ok (string name, rest) else stop (.unknownVariant name names) rest

/-- Reads one of some names: the name as a string, or an object with the name and null. -/
def readChoice (names : List Text) (t : Text) : Except Stop (Json × Text) :=
  match skip t with
  | [] => stop .endInValue []
  | '"' :: rest => do
    let (name, rest) ← stringBody rest
    knownName names name rest
  | '\x7b' :: rest => do
    let (name, rest) ← match ← nextKey true rest with
      | .done _ => stopAt .noValue (skip rest)
      | .more rest => stringBody rest
    let (v, rest) ← knownName names name rest
    let rest ← afterColon rest
    let rest ← match skip rest with
      | 'n' :: more => (word () ['u', 'l', 'l'] more).map (·.2)
      | more => misplaced "unit" more
    match skip rest with
    | '\x7d' :: more => .ok (v, more)
    | [] => stop .endInObject []
    | more => stop .noValue more
  | more => stopAt .noValue more

/-- Passes over a number whose value does not matter, after its sign. -/
def passNumber (t : Text) : Except Stop Text := do
  let t ← match t with
    | [] => stop .badNumber []
    | '0' :: rest => if rest.head?.any Char.isDigit then stopAt .badNumber rest else .ok rest
    | c :: rest =>
      if c.isDigit then .ok (rest.dropWhile Char.isDigit) else stopAt .badNumber (c :: rest)
  match t with
  | '.' :: rest =>
    if rest.head?.any Char.isDigit then passExponent (rest.dropWhile Char.isDigit)
    else stopAt .badNumber rest
  | more => passExponent more
where
  passExponent (t : Text) : Except Stop Text :=
    if t.head? = some 'e' || t.head? = some 'E' then
      let digits := match t.drop 1 with
        | '+' :: more => more
        | '-' :: more => more
        | more => more
      if digits.head?.any Char.isDigit then .ok (digits.dropWhile Char.isDigit)
      else stopAt .badNumber digits
    else .ok t

/-- Passes over a string whose value does not matter, after its opening quote. -/
def passString : Text → Except Stop Text
  | [] => stop .endInString []
  | '"' :: rest => .ok rest
  | ['\\'] => stop .endInString []
  | '\\' :: 'u' :: a :: b :: c :: d :: rest =>
    match hexValue4? a b c d with
    | none => stopInCode (a :: b :: c :: d :: rest)
    | some _ => passString rest
  | '\\' :: 'u' :: code => stopInCode code
  | '\\' :: c :: rest =>
    if (escaped? c).isSome then passString rest else stopAt .badEscape (c :: rest)
  | c :: rest => if c.toNat < 32 then stop .controlCharacter (c :: rest) else passString rest

inductive Bracket
  | list
  | object
  deriving DecidableEq

/-- Where the passing over stands: before a value, or after one or after an opening bracket. -/
inductive Standing
  | before
  | after (comma : Bool)

/-- Passes over a value that does not matter, at any depth. The fuel bounds the number of steps. -/
def passFrom : (fuel : Nat) → Standing → List Bracket → Text → Except Stop Text
  | 0, _, _, t => stop .endInValue t
  | fuel + 1, .before, opened, t =>
    match skip t with
    | [] => stop .endInValue []
    | 'n' :: rest => do passFrom fuel (.after true) opened (← word () ['u', 'l', 'l'] rest).2
    | 't' :: rest => do passFrom fuel (.after true) opened (← word () ['r', 'u', 'e'] rest).2
    | 'f' :: rest => do passFrom fuel (.after true) opened (← word () ['a', 'l', 's', 'e'] rest).2
    | '-' :: rest => do passFrom fuel (.after true) opened (← passNumber rest)
    | '"' :: rest => do passFrom fuel (.after true) opened (← passString rest)
    | '[' :: rest => passFrom fuel (.after false) (.list :: opened) rest
    | '\x7b' :: rest => passFrom fuel (.after false) (.object :: opened) rest
    | c :: rest =>
      if c.isDigit then do passFrom fuel (.after true) opened (← passNumber (c :: rest))
      else stopAt .noValue (c :: rest)
  | _ + 1, .after _, [], t => .ok t
  | fuel + 1, .after comma, bracket :: opened, t =>
    let enter (t : Text) : Except Stop Text :=
      match bracket with
      | .list => passFrom fuel .before (bracket :: opened) t
      | .object =>
        match skip t with
        | [] => stop .endInObject []
        | '"' :: rest => do
          let rest ← passString rest
          passFrom fuel .before (bracket :: opened) (← afterColon rest)
        | more => stopAt .keyNotString more
    match skip t with
    | [] => stop (if bracket = .list then .endInList else .endInObject) []
    | c :: rest =>
      if c = ',' && comma then enter rest
      else if (c = ']' && bracket = .list) || (c = '\x7d' && bracket = .object) then
        passFrom fuel (.after true) opened rest
      else if comma then
        stopAt (if bracket = .list then .noListEnd else .noObjectEnd) (c :: rest)
      else enter (c :: rest)

def pass (t : Text) : Except Stop Text := passFrom (2 * t.length + 2) .before [] t

structure FieldReader where
  key : Text
  read : Text → Except Stop (Json × Text)
  fallback : Option Json
  optional : Bool

abbrev Slots := List (Text × Option Json)

/-- The value of a field, or what it has when it is left out. -/
def settled (readers : List FieldReader) (slots : Slots) : Except Problem (List (Text × Json)) :=
  readers.mapM fun r =>
    match (slots.find? (fun s => s.1 = r.key)).bind (·.2), r.fallback with
    | some v, _ => .ok (r.key, v)
    | none, some v => .ok (r.key, v)
    | none, none => if r.optional then .ok (r.key, null) else .error (.missingField r.key)

def readFields (readers : List FieldReader) :
    (fuel : Nat) → (first : Bool) → Slots → Text → Except Stop (Slots × Text)
  | 0, _, _, t => stop .endInObject t
  | fuel + 1, first, slots, t => do
    match ← nextKey first t with
    | .done rest => .ok (slots, rest)
    | .more rest =>
      let (key, rest) ← stringBody rest
      match readers.find? (fun r => r.key = key) with
      | none =>
        let rest ← afterColon rest
        readFields readers fuel false slots (← pass rest)
      | some r =>
        if slots.any (fun s => s.1 = key) then
          match skip rest with
          | '\x7d' :: more => stop (.repeatedField key) more
          | more => stop (.repeatedField key) more
        else
          let rest ← afterColon rest
          let (v, rest) ← r.read rest
          readFields readers fuel false ((key, some v) :: slots) rest

/-- The fallbacks of the fields that a list has no value for. -/
def fallbacks (wanted : Text) (count : Nat) (rest : Text) :
    List FieldReader → Except Stop (List (Text × Json))
  | [] => .ok []
  | r :: readers =>
    match r.fallback with
    | none => stop (.wrongLength count wanted) rest
    | some v => do
      let others ← fallbacks wanted (count + 1) rest readers
      .ok ((r.key, v) :: others)

/-- The fields of a record from a list, after its bracket. -/
def readPlaces (wanted : Text) : (count : Nat) → List FieldReader → Text →
    Except Stop (List (Text × Json) × Text)
  | _, [], t =>
    match skip t with
    | [] => stop .endInList []
    | ']' :: rest => .ok ([], rest)
    | ',' :: rest =>
      match skip rest with
      | [] => stop .trailingCharacters []
      | ']' :: more => stopAt .trailingComma (']' :: more)
      | more => stopAt .trailingCharacters more
    | more => stopAt .trailingCharacters more
  | count, r :: readers, t => do
    match ← nextItem (count = 0) t with
    | .done rest => do
      let others ← fallbacks wanted count rest (r :: readers)
      .ok (others, rest)
    | .more rest =>
      let (v, rest) ← r.read rest
      let (others, rest) ← readPlaces wanted (count + 1) readers rest
      .ok ((r.key, v) :: others, rest)

def readRecord (name : Text) (readers : List FieldReader) (t : Text) :
    Except Stop (Json × Text) :=
  match skip t with
  | [] => stop .endInValue []
  | '\x7b' :: rest => do
    let (slots, rest) ← readFields readers (rest.length + 1) true [] rest
    match settled readers slots with
    | .ok all => .ok (object all, rest)
    | .error p => stop p rest
  | '[' :: rest => do
    let (all, rest) ← readPlaces (elementsOf name readers.length) 0 readers rest
    .ok (object all, rest)
  | more => misplaced ("struct ".toList ++ name) more

mutual
def Shape.read : Shape → Text → Except Stop (Json × Text)
  | .flag => readFlag
  | .text wanted => fun t => do
    let (s, rest) ← readText wanted t
    .ok (string s, rest)
  | .count => readCount
  | .optional inner =>
    let readInner := inner.read
    fun t =>
      match skip t with
      | 'n' :: rest => word null ['u', 'l', 'l'] rest
      | more => readInner more
  | .list item =>
    let readItem := item.read
    fun t =>
      match skip t with
      | '[' :: rest => do
        let (all, rest) ← items readItem (rest.length + 1) true rest
        .ok (array all, rest)
      | more => misplaced "a sequence" more
  | .record name fields => readRecord name fields.readers
  | .choice names => readChoice names

def Fields.readers : Fields → List FieldReader
  | .none => []
  | .field key shape fallback others =>
    ⟨key, shape.read, fallback, shape.isOptional⟩ :: others.readers
end

def Shape.parse (shape : Shape) (text : Text) : Except Fault Json := whole shape.read text

def unfit (v : Json) (wanted : Text) : Except Problem α := .error (.wrongType v.found wanted)

structure FieldFit where
  key : Text
  fit : Json → Except Problem Json
  fallback : Option Json
  optional : Bool

/-- Fits the fields of an object in their order, leaving out the unknown ones. -/
def fitFields (fits : List FieldFit) : List (Text × Json) → Except Problem (List (Text × Json))
  | [] => .ok []
  | (key, v) :: rest =>
    match fits.find? (fun f => f.key = key) with
    | none => fitFields fits rest
    | some f => do
      let v ← f.fit v
      let others ← fitFields fits rest
      .ok ((key, v) :: others)

/-- Fits the values of a list to the fields of a record; values beyond the last field are left
out. -/
def fitPlaces (wanted : Text) : (count : Nat) → List FieldFit → List Json →
    Except Problem (List (Text × Json))
  | _, [], _ => .ok []
  | count, f :: fits, [] =>
    match f.fallback with
    | none => .error (.wrongLength count wanted)
    | some v => do
      let others ← fitPlaces wanted (count + 1) fits []
      .ok ((f.key, v) :: others)
  | count, f :: fits, v :: rest => do
    let v ← f.fit v
    let others ← fitPlaces wanted (count + 1) fits rest
    .ok ((f.key, v) :: others)

def fitRecord (name : Text) (fits : List FieldFit) : Json → Except Problem Json
  | object fields => do
    let known ← fitFields fits fields
    let all ← fits.mapM fun f =>
      match field? f.key known, f.fallback with
      | some v, _ => .ok (f.key, v)
      | none, some v => .ok (f.key, v)
      | none, none => if f.optional then .ok (f.key, null) else .error (.missingField f.key)
    .ok (object all)
  | array values => do
    let all ← fitPlaces (elementsOf name fits.length) 0 fits values
    .ok (object all)
  | v => unfit v ("struct ".toList ++ name)

mutual
def Shape.fit : Shape → Json → Except Problem Json
  | .flag, v =>
    match v with
    | bool b => .ok (bool b)
    | v => unfit v "a boolean"
  | .text wanted, v =>
    match v with
    | string s => .ok (string s)
    | v => unfit v wanted
  | .count, v =>
    match v with
    | number (.natural n) => .ok (ofNat n)
    | number (.negative n) => .error (.wrongValue (.number (.negative n)) "usize")
    | v => unfit v "usize"
  | .optional inner, v =>
    match v with
    | null => .ok null
    | v => inner.fit v
  | .list item, v =>
    match v with
    | array all => do
      let all ← all.mapM item.fit
      .ok (array all)
    | v => unfit v "a sequence"
  | .record name fields, v => fitRecord name fields.fits v
  | .choice names, v =>
    match v with
    | string s => if names.contains s then .ok (string s) else .error (.unknownVariant s names)
    | v => unfit v "string or map"

def Fields.fits : Fields → List FieldFit
  | .none => []
  | .field key shape fallback others =>
    ⟨key, shape.fit, fallback, shape.isOptional⟩ :: others.fits
end

end SourceMarks.Json
