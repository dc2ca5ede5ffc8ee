import SourceMarks.Directive.Basic
import SourceMarks.Fault
import SourceMarks.Text.Blank

/-!
Payloads: a label, a JSON array of globs and, after another comma, a JSON object of options. Single
quotes count as double ones, and only commas outside all brackets and strings separate.
-/

namespace SourceMarks.Payload

def normalizeQuotes (t : Text) : Text := t.map fun c => if c = '\'' then '"' else c

/-- Where a scan for commas stands: how many brackets are open, and whether it is in a string, or
behind a backslash there. -/
structure Scanner where
  depth : Nat
  inString : Bool
  escaped : Bool
  deriving DecidableEq, Repr

def Scanner.initial : Scanner := ⟨0, false, false⟩

def Scanner.step (s : Scanner) (c : Char) : Scanner :=
  if s.inString then
    if s.escaped then { s with escaped := false }
    else if c = '\\' then { s with escaped := true }
    else if c = '"' then { s with inString := false }
    else s
  else if c = '"' then { s with inString := true }
  else if c = '[' || c = '\x7b' then { s with depth := s.depth + 1 }
  else if c = ']' || c = '\x7d' then { s with depth := s.depth - 1 }
  else s

def Scanner.separates (s : Scanner) (c : Char) : Bool := !s.inString && c = ',' && s.depth = 0

/-- The places of the separating commas, counted in characters from `offset` on. -/
def commasFrom : Scanner → (offset : Nat) → Text → List Nat
  | _, _, [] => []
  | s, offset, c :: rest =>
    let others := commasFrom (s.step c) (offset + 1) rest
    if s.separates c then offset :: others else others

def structuralCommas (t : Text) : List Nat := commasFrom .initial 0 t

/-- The texts in an array of strings; the first other element is named by its place. -/
def stringsFrom : (index : Nat) → List Json → Except Text (List Text)
  | _, [] => .ok []
  | index, .string s :: rest => (stringsFrom (index + 1) rest).map (s :: ·)
  | index, other :: _ =>
    .error ("element ".toList ++ Text.ofNat index ++ " is ".toList ++ other.kind)

/-- The globs of an array literal, or why it is none. -/
def globs (source : Text) : Except Text (List Text) :=
  match Json.parse source.trim with
  | .error e => .error e.message
  | .ok (.array []) => .error "the array is empty"
  | .ok (.array items) => stringsFrom 0 items
  | .ok other => .error ("found ".toList ++ other.kind ++ " instead of an array".toList)

/-- The options of an object literal, or why it is none. -/
def options (source : Text) : Except Text Options :=
  match Json.parse source.trim with
  | .error e => .error e.message
  | .ok (.object fields) =>
    match Options.shape.fit (.object fields) with
    | .ok v => .ok ((Options.ofJson? v).getD .default)
    | .error p => .error p.message
  | .ok other => .error ("found ".toList ++ other.kind ++ " instead of an object".toList)

/-- The label in front of the first comma. A bracket there means that the label is missing. -/
def label? (front : Text) : Option Text :=
  if front.any (fun c => c = '[' || c = '\x7b') then none
  else
    let label := front.trim
    if label.isEmpty then none else some label

/-- The source of the globs, and that of the options if there is a second comma. -/
def cutSources (payload : Text) (first last : Nat) : Text × Option Text :=
  if last = first then (payload.drop (first + 1), none)
  else ((payload.take last).drop (first + 1), some (payload.drop (last + 1)))

def parse (raw : Text) : Except Fault Directive := do
  let payload := normalizeQuotes raw
  let commas := structuralCommas payload
  match commas.head?, commas.getLast? with
  | some first, some last =>
    match label? (payload.take first) with
    | none => .error (.missingLabel raw)
    | some label =>
      let (globsSource, optionsSource) := cutSources payload first last
      let globs ← (globs globsSource).mapError (.invalidGlobs raw)
      let options ← match optionsSource with
        | none => .ok Options.default
        | some source => (options source).mapError (.invalidOptions raw)
      .ok ⟨label, globs, options⟩
  | _, _ => .error (.missingLabel raw)

end SourceMarks.Payload
