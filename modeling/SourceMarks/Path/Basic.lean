import SourceMarks.Text.Raw

/-!
Paths with `/` between their parts, in characters or in the bytes of a file system. A path keeps the
text it was written with; what it means is the list of its components, in which repeated separators
and inner `.` leave no trace.
-/

namespace SourceMarks

/-- What paths are written in. -/
class PathSymbol (α : Type) where
  slash : α
  dot : α

open PathSymbol

instance : PathSymbol Char := ⟨'/', '.'⟩

instance : PathSymbol UInt8 := ⟨0x2F, 0x2E⟩

@[simp] theorem slash_char : (slash : Char) = '/' := rfl

@[simp] theorem dot_char : (dot : Char) = '.' := rfl

structure Path (α : Type := Char) where
  text : Text α
  deriving DecidableEq, Repr, Inhabited

abbrev RawPath := Path UInt8

namespace Path
variable {α : Type}

/-- The path in UTF-8. -/
def raw (p : Path) : RawPath := ⟨p.text.bytes⟩

def shown (p : RawPath) : Text := RawText.shown p.text

inductive Component (α : Type := Char)
  | root
  | here
  | up
  | name (n : Text α)
  deriving DecidableEq, Repr

variable [PathSymbol α]

def Component.toText : Component α → Text α
  | root => [slash]
  | here => [dot]
  | up => [dot, dot]
  | name n => n

variable [DecidableEq α]

/-- What a part between separators stands for, if it stands for anything. -/
def component? (part : Text α) : Option (Component α) :=
  if part = [] || part = [dot] then none
  else if part = [dot, dot] then some .up
  else some (.name part)

def parts (p : Path α) : List (Text α) := p.text.split slash

def isAbsolute (p : Path α) : Bool := p.text.head? = some slash

/-- The components. A `.` counts only at the beginning of a relative path. -/
def components (p : Path α) : List (Component α) :=
  if p.isAbsolute then .root :: p.parts.filterMap component?
  else
    match p.parts with
    | [] => []
    | first :: rest =>
      if first = [dot] then .here :: rest.filterMap component?
      else (first :: rest).filterMap component?

/-- The other path seen from this one. An absolute path stays as it is. -/
def join (p q : Path α) : Path α :=
  if q.isAbsolute then q
  else if p.text = [] || p.text.getLast? = some slash then ⟨p.text ++ q.text⟩
  else ⟨p.text ++ slash :: q.text⟩

/-- The path of what stands below a folder under some names. -/
def under (p : Path α) (names : List (Text α)) : Path α := names.foldl (fun q n => q.join ⟨n⟩) p

def ofComponents (cs : List (Component α)) : Path α :=
  cs.foldl (fun p c => p.join ⟨c.toText⟩) ⟨[]⟩

/-- The components written with single separators. -/
def posixOf : List (Component α) → Text α
  | [] => []
  | .root :: rest => slash :: Text.join [slash] (rest.map Component.toText)
  | cs => Text.join [slash] (cs.map Component.toText)

def toPosix (p : Path α) : Text α := posixOf p.components

/-- Whether a part counts as a component, by its place in the path. -/
def counts (first : Bool) (part : Text α) : Bool :=
  if first then part != [] else part != [] && part != [dot]

/-- Drops the parts at the end that stand for nothing; `first` tells whether the list begins the
path. -/
def dropIdleEnd (first : Bool) : List (Text α) → List (Text α)
  | [] => []
  | part :: rest =>
    match dropIdleEnd false rest with
    | [] => if counts first part then [part] else []
    | kept => part :: kept

/-- The parts after the root, or all parts of a relative path. -/
def bodyParts (p : Path α) : List (Text α) := if p.isAbsolute then p.parts.drop 1 else p.parts

/-- A path of the same kind with other parts. -/
def withBody (p : Path α) (body : List (Text α)) : Path α :=
  if p.isAbsolute then ⟨slash :: Text.join [slash] body⟩ else ⟨Text.join [slash] body⟩

def trimmed (p : Path α) : Path α := p.withBody (dropIdleEnd (!p.isAbsolute) p.bodyParts)

/-- The path without its last component; the root and the empty path have no parent. -/
def parent? (p : Path α) : Option (Path α) :=
  match dropIdleEnd (!p.isAbsolute) p.bodyParts with
  | [] => none
  | body => some (p.withBody (dropIdleEnd (!p.isAbsolute) body.dropLast))

def fileName? (p : Path α) : Option (Text α) :=
  match p.components.getLast? with
  | some (.name n) => some n
  | _ => none

/-- What follows the last point of the file name, unless that point begins the name. -/
def extension? (p : Path α) : Option (Text α) :=
  p.fileName?.bind fun n =>
    match Text.cutAfterLast (· = dot) n with
    | ([], _) => none
    | ([_], _) => none
    | (_, ending) => some ending

/-- Drops parts until a number of components is gone, and what is idle after them. -/
def dropParts (first : Bool) : (count : Nat) → List (Text α) → List (Text α)
  | _, [] => []
  | 0, part :: rest => if counts false part then part :: rest else dropParts false 0 rest
  | count + 1, part :: rest =>
    if counts first part then dropParts false count rest else dropParts false (count + 1) rest

/-- The rest of a path below a base, as it is written. -/
def below? (p base : Path α) : Option (Path α) :=
  let base := base.components
  if base.isPrefixOf p.components then
    if base.isEmpty then some p.trimmed
    else
      let count := if p.isAbsolute then base.length - 1 else base.length
      let left := dropParts (!p.isAbsolute) count p.bodyParts
      some ⟨Text.join [slash] (dropIdleEnd false left)⟩
  else none

omit [PathSymbol α] [DecidableEq α] in
/-- The order of components: root, `.`, `..`, then names. -/
def Component.rank : Component α → Nat
  | root => 0
  | here => 1
  | up => 2
  | name _ => 3

def Component.le (a b : Component UInt8) : Bool :=
  match a, b with
  | name m, name n => m ≤ n
  | a, b => a.rank ≤ b.rank

def componentsLe : List (Component UInt8) → List (Component UInt8) → Bool
  | [], _ => true
  | _ :: _, [] => false
  | a :: as, b :: bs => if a = b then componentsLe as bs else a.le b

def le (p q : RawPath) : Bool := componentsLe p.components q.components

def sort (ps : List RawPath) : List RawPath := ps.mergeSort le

end Path
end SourceMarks
