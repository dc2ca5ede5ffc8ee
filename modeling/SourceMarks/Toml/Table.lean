import SourceMarks.Toml.Scalar

/-!
The tables of a TOML document while it is read. A table may be implied by a header or a dotted key
that goes through it; only such a table may be opened once more.
-/

namespace SourceMarks.Toml

inductive Item
  | value (v : Json)
  /-- `implied` tells that the table was only passed through, `dotted` that this was by a key. -/
  | table (implied dotted : Bool) (entries : List (Text × Item))
  /-- The tables under headers in double brackets. -/
  | tables (elements : List Item)

abbrev Entries := List (Text × Item)

namespace Entries

def find? (key : Text) : Entries → Option Item
  | [] => none
  | (k, item) :: rest => if k = key then some item else find? key rest

def put (key : Text) (item : Item) : Entries → Entries
  | [] => [(key, item)]
  | (k, old) :: rest => if k = key then (key, item) :: rest else (k, old) :: put key item rest

def remove (key : Text) (es : Entries) : Entries := es.filter fun e => e.1 ≠ key

/-- Acts on the entries of the table at the end of a path, and makes the tables on the way. By a
key one may not pass through a table that has a header or braces of its own. -/
def descend {α : Type} (byKey : Bool)
    (act : (dotted : Bool) → Entries → Except Problem (α × Entries)) :
    (path : List Text) → (dotted : Bool) → Entries → Except Problem (α × Entries)
  | [], dotted, es => act dotted es
  | key :: path, _, es =>
    match find? key es with
    | none => do
      let (a, inner) ← descend byKey act path byKey []
      .ok (a, es.put key (.table true byKey inner))
    | some (.value _) => .error (.notTable key)
    | some (.table implied dotted inner) =>
      if byKey && !implied then .error (.repeatedKey key)
      else do
        let (a, inner) ← descend byKey act path dotted inner
        .ok (a, es.put key (.table implied dotted inner))
    | some (.tables elements) =>
      match elements.getLast? with
      | some (.table implied dotted inner) => do
        let (a, inner) ← descend byKey act path dotted inner
        .ok (a, es.put key (.tables (elements.dropLast ++ [.table implied dotted inner])))
      | _ => .error (.notTable key)

/-- Gives a dotted key its value. -/
def define (path : List Text) (key : Text) (v : Json) (es : Entries) : Except Problem Entries :=
  let act (dotted : Bool) (es : Entries) : Except Problem (Unit × Entries) :=
    if dotted = path.isEmpty || (find? key es).isSome then .error (.repeatedKey key)
    else .ok ((), es.put key (.value v))
  (descend true act path false es).map (·.2)

/-- Takes out the table that a header opens: a new one, or one that headers only passed through. -/
def takeTable (path : List Text) (key : Text) (es : Entries) : Except Problem (Entries × Entries) :=
  let act (_ : Bool) (es : Entries) : Except Problem (Entries × Entries) :=
    match find? key es with
    | none => .ok ([], es)
    | some (.table true false inner) => .ok (inner, es.remove key)
    | some _ => .error (.repeatedKey key)
  descend false act path false es

def putTable (es : Entries) (path : List Text) (key : Text) (table : Entries) :
    Except Problem Entries :=
  let act (_ : Bool) (es : Entries) : Except Problem (Unit × Entries) :=
    match find? key es with
    | none => .ok ((), es.put key (.table false false table))
    | some _ => .error (.repeatedKey key)
  (descend false act path false es).map (·.2)

/-- Checks that a header in double brackets may add a table. -/
def checkTables (path : List Text) (key : Text) (es : Entries) : Except Problem Entries :=
  let act (_ : Bool) (es : Entries) : Except Problem (Unit × Entries) :=
    match find? key es with
    | none => .ok ((), es)
    | some (.tables _) => .ok ((), es)
    | some _ => .error (.repeatedKey key)
  (descend false act path false es).map (·.2)

def addTable (es : Entries) (path : List Text) (key : Text) (table : Entries) :
    Except Problem Entries :=
  let act (_ : Bool) (es : Entries) : Except Problem (Unit × Entries) :=
    match find? key es with
    | none => .ok ((), es.put key (.tables [.table false false table]))
    | some (.tables elements) =>
      .ok ((), es.put key (.tables (elements ++ [.table false false table])))
    | some _ => .error (.repeatedKey key)
  (descend false act path false es).map (·.2)

end Entries

mutual
def Item.toJson : Item → Json
  | .value v => v
  | .table _ _ entries => .object (fieldsOf entries)
  | .tables elements => .array (valuesOf elements)

def fieldsOf : List (Text × Item) → List (Text × Json)
  | [] => []
  | (key, item) :: rest => (key, item.toJson) :: fieldsOf rest

def valuesOf : List Item → List Json
  | [] => []
  | item :: rest => item.toJson :: valuesOf rest
end

/-- A document in progress: the closed tables, and the table that is open, with its header. -/
structure Document where
  root : Entries
  current : Entries
  header : List Text
  /-- The header stands in double brackets. -/
  many : Bool

namespace Document

def initial : Document := ⟨[], [], [], false⟩

def close (d : Document) : Except Problem Entries :=
  match d.header.getLast? with
  | none => .ok d.current
  | some key =>
    if d.many then d.root.addTable d.header.dropLast key d.current
    else d.root.putTable d.header.dropLast key d.current

def openTable (d : Document) (path : List Text) (key : Text) (many : Bool) :
    Except Problem Document := do
  let root ← d.close
  if many then
    let root ← root.checkTables path key
    .ok ⟨root, [], path ++ [key], true⟩
  else
    let (current, root) ← root.takeTable path key
    .ok ⟨root, current, path ++ [key], false⟩

/-- Gives a key of the open table its value. -/
def define (d : Document) (path : List Text) (key : Text) (v : Json) : Except Problem Document :=
  (d.current.define path key v).map fun current => { d with current := current }

end Document
end SourceMarks.Toml
