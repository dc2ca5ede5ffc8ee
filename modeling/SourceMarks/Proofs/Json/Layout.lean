import SourceMarks.Json.Writer
import SourceMarks.Json.Reader

/-!
One writer for both written forms. They differ only in the blanks in front of items and closing
brackets, and behind colons.
-/
namespace SourceMarks.Json

/-- The blanks of a written form: those in front of what stands at a level, and those behind a
colon. -/
structure Layout where
  line : Nat → Text
  space : Text
  line_blank : ∀ level, ∀ c ∈ line level, isSpace c = true
  space_blank : ∀ c ∈ space, isSpace c = true

namespace Layout

/-- Without any blank. -/
def dense : Layout := ⟨fun _ => [], [], by simp, by simp⟩

theorem isSpace_of_mem_newLine (level : Nat) : ∀ c ∈ newLine level, isSpace c = true := by
  intro c hc
  cases List.mem_cons.mp hc with
  | inl h => exact h ▸ rfl
  | inr h => exact List.eq_of_mem_replicate h ▸ rfl

/-- Each item or field on a line of its own. -/
def spread : Layout := ⟨newLine, [' '], isSpace_of_mem_newLine, by simp [isSpace]⟩

variable (l : Layout)

/-- The blanks behind an opening bracket. In an empty pair of brackets there are none. -/
def front (level : Nat) (parts : List Text) : Text :=
  if parts.isEmpty then [] else l.line (level + 1)

/-- The blanks in front of a closing bracket. -/
def back (level : Nat) (parts : List Text) : Text := if parts.isEmpty then [] else l.line level

/-- Parts between brackets. -/
def enclose (opening closing : Char) (level : Nat) (parts : List Text) : Text :=
  opening :: (l.front level parts ++ (Text.join (',' :: l.line (level + 1)) parts ++
    (l.back level parts ++ [closing])))

mutual
/-- The written form from a level on. -/
def write (l : Layout) (level : Nat) : Json → Text
  | .array items => l.enclose '[' ']' level (l.writeItems (level + 1) items)
  | .object fields => l.enclose '\x7b' '\x7d' level (l.writeFields (level + 1) fields)
  | scalar => compact scalar

def writeItems (l : Layout) (level : Nat) : List Json → List Text
  | [] => []
  | item :: rest => l.write level item :: l.writeItems level rest

def writeFields (l : Layout) (level : Nat) : List (Text × Json) → List Text
  | [] => []
  | (key, value) :: rest =>
    (quote key ++ ':' :: (l.space ++ l.write level value)) :: l.writeFields level rest
end

variable {level : Nat} {l}

@[simp] theorem write_null : l.write level .null = ['n', 'u', 'l', 'l'] := rfl

@[simp] theorem write_bool (b : Bool) : l.write level (.bool b) = compact (.bool b) := rfl

@[simp] theorem write_string (s : Text) : l.write level (.string s) = quote s := rfl

@[simp] theorem write_ofNat (n : Nat) : l.write level (ofNat n) = Text.ofNat n := rfl

@[simp] theorem write_array (items : List Json) :
    l.write level (.array items) = l.enclose '[' ']' level (l.writeItems (level + 1) items) := rfl

@[simp] theorem write_object (fields : List (Text × Json)) :
    l.write level (.object fields) =
      l.enclose '\x7b' '\x7d' level (l.writeFields (level + 1) fields) := rfl

variable (l)

theorem front_blank (level : Nat) (parts : List Text) :
    ∀ c ∈ l.front level parts, isSpace c = true := by
  rw [front]
  split
  · simp
  · exact l.line_blank (level + 1)

theorem back_blank (level : Nat) (parts : List Text) :
    ∀ c ∈ l.back level parts, isSpace c = true := by
  rw [back]
  split
  · simp
  · exact l.line_blank level

theorem writeItems_eq_map (level : Nat) (items : List Json) :
    l.writeItems level items = items.map (l.write level) := by
  induction items with
  | nil => rfl
  | cons item items ih => rw [writeItems, ih, List.map_cons]

/-- A field as it is written. -/
def fieldText (level : Nat) (f : Text × Json) : Text :=
  quote f.1 ++ ':' :: (l.space ++ l.write level f.2)

theorem writeFields_eq_map (level : Nat) (fields : List (Text × Json)) :
    l.writeFields level fields = fields.map (l.fieldText level) := by
  induction fields with
  | nil => rfl
  | cons f fields ih => rw [writeFields, ih, List.map_cons, fieldText]

theorem enclose_dense (opening closing : Char) (level : Nat) (parts : List Text) :
    dense.enclose opening closing level parts =
      opening :: (Text.join [','] parts ++ [closing]) := by
  simp [enclose, front, back, dense]

theorem enclose_spread (opening closing : Char) (level : Nat) (parts : List Text) :
    spread.enclose opening closing level parts = block opening closing level parts := by
  rw [enclose, front, back, block]
  cases parts with
  | nil => rfl
  | cons p parts => simp [spread]

mutual
theorem write_dense (level : Nat) : ∀ v, dense.write level v = compact v
  | .null | .bool _ | .number _ | .string _ => by rw [write] <;> simp
  | .array items => by rw [write, compact, enclose_dense, writeItems_dense]
  | .object fields => by rw [write, compact, enclose_dense, writeFields_dense]

theorem writeItems_dense (level : Nat) : ∀ items, dense.writeItems level items = compactItems items
  | [] => rfl
  | item :: items => by rw [writeItems, compactItems, write_dense, writeItems_dense]

theorem writeFields_dense (level : Nat) :
    ∀ fields, dense.writeFields level fields = compactFields fields
  | [] => rfl
  | (key, value) :: fields => by
    rw [writeFields, compactFields, write_dense, writeFields_dense]
    simp [dense]
end

mutual
theorem write_spread (level : Nat) : ∀ v, spread.write level v = prettyAt level v
  | .null | .number _ | .string _ => by simp [write, compact, prettyAt]
  | .bool true | .bool false => by simp [write, compact, prettyAt]
  | .array items => by rw [write, prettyAt, enclose_spread, writeItems_spread]
  | .object fields => by rw [write, prettyAt, enclose_spread, writeFields_spread]

theorem writeItems_spread (level : Nat) :
    ∀ items, spread.writeItems level items = prettyItems level items
  | [] => rfl
  | item :: items => by rw [writeItems, prettyItems, write_spread, writeItems_spread]

theorem writeFields_spread (level : Nat) :
    ∀ fields, spread.writeFields level fields = prettyFields level fields
  | [] => rfl
  | (key, value) :: fields => by
    rw [writeFields, prettyFields, write_spread, writeFields_spread]
    simp [spread]
end

end Layout
end SourceMarks.Json
