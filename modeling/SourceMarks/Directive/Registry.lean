import SourceMarks.Directive.Payload
import SourceMarks.Marker.Occurrence

/-!
The directives of one text, in order, with a label of its own for each. Labels are looked up in a
table of places, which is kept in step with the list.
-/

namespace SourceMarks

/-- Where the directives of labels stand. -/
abbrev Places := List (Text × Nat)

namespace Places

def find? (label : Text) : Places → Option Nat
  | [] => none
  | (key, place) :: rest => if key = label then some place else find? label rest

end Places

/-- A label leads to the place of the directive that has it, and no other label leads anywhere. -/
def InStep (directives : List Directive) (places : Places) : Prop :=
  ∀ label i, places.find? label = some i ↔ (directives[i]?).map Directive.label = some label

namespace InStep
variable {directives : List Directive} {places : Places} {d : Directive}

theorem nil : InStep [] [] := by
  intro label i
  simp [Places.find?]

theorem lt_length (h : InStep directives places) {label : Text} {i : Nat}
    (hp : places.find? label = some i) : i < directives.length := by
  have hl := (h label i).mp hp
  by_cases hi : i < directives.length
  · exact hi
  · rw [List.getElem?_eq_none (Nat.le_of_not_lt hi)] at hl
    cases hl

/-- A directive with a new label is put at the end, and its label leads there. -/
theorem concat (h : InStep directives places) (hd : places.find? d.label = none) :
    InStep (directives ++ [d]) ((d.label, directives.length) :: places) := by
  intro label i
  rw [Places.find?]
  obtain hi | hi | hi := Nat.lt_trichotomy i directives.length
  · rw [List.getElem?_append_left hi, ← h label i]
    split
    · next hl =>
      subst hl
      have hne : directives.length ≠ i := Nat.ne_of_gt hi
      simp [hd, hne]
    · exact Iff.rfl
  · -- The new directive itself: in the old table no label leads behind the list.
    subst hi
    have hnone : places.find? label ≠ some directives.length :=
      fun hp => Nat.lt_irrefl _ (h.lt_length hp)
    rw [List.getElem?_concat_length]
    split
    · next hl => simp [hl]
    · next hl => simp [hl, hnone]
  · have hnone : places.find? label ≠ some i := fun hp => Nat.lt_asymm hi (h.lt_length hp)
    have hnew : (directives ++ [d])[i]? = none := List.getElem?_eq_none (by simp; omega)
    rw [hnew]
    split
    · simp [Nat.ne_of_lt hi]
    · simp [hnone]

end InStep

structure Registry where
  directives : List Directive
  places : Places
  inStep : InStep directives places

namespace Registry

def empty : Registry := ⟨[], [], .nil⟩

/-- Offers a directive: the answer, and the registry afterwards. A label that is taken is
refused. -/
def offer (r : Registry) (d : Directive) : Except Fault Unit × Registry :=
  match h : r.places.find? d.label with
  | some _ => (.error (.duplicateLabel d.label), r)
  | none =>
    (.ok (), ⟨r.directives ++ [d], (d.label, r.directives.length) :: r.places, r.inStep.concat h⟩)

def insert (r : Registry) (d : Directive) : Except Fault Registry :=
  (r.offer d).1.map fun _ => (r.offer d).2

/-- The directive with a label, at the place that the label leads to. -/
def get? (r : Registry) (label : Text) : Option Directive :=
  match h : r.places.find? label with
  | none => none
  | some i => some (r.directives.get ⟨i, r.inStep.lt_length h⟩)

def size (r : Registry) : Nat := r.directives.length

def isEmpty (r : Registry) : Bool := r.directives.isEmpty

/-- Adds the directives of occurrences; the first that cannot be added is the fault. -/
def insertAll : Registry → List Occurrence → Except Fault Registry
  | r, [] => .ok r
  | r, o :: rest => do
    let d ← Payload.parse o.payload
    insertAll (← r.insert d) rest

/-- The directives of a text. A load marker without a payload is a fault wherever it stands. -/
def ofText (text : Text) : Except Fault Registry :=
  if (Marker.emptyLoadLine? text).isSome then .error .emptyArguments
  else insertAll empty (Marker.load.scan text)

end Registry
end SourceMarks
