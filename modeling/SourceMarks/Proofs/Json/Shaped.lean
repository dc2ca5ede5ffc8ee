import SourceMarks.Proofs.Json.Counts
import SourceMarks.Proofs.Json.Layout

/-!
Reading a text under a shape. Main statement: in each layout, the written form of a value of the
shape is read back as this value.
-/
namespace SourceMarks.Json
variable {front gap back rest t w : Text} {f : Text × Json} {fs : List (Text × Json)}

mutual
/-- The values that a shape stands for, with the fields of a record all there and in their order. -/
def Shape.Holds : Shape → Json → Prop
  | .flag, v => ∃ b, v = bool b
  | .text _, v => ∃ s, v = string s
  | .count, v => ∃ n < Nat.pow 2 64, v = ofNat n
  | .optional inner, v => v = null ∨ inner.Holds v
  | .list item, v => ∃ all, v = array all ∧ ∀ x ∈ all, item.Holds x
  | .record _ fields, v => ∃ all, v = object all ∧ (all.map Prod.fst).Nodup ∧ fields.Holds all
  | .choice names, v => ∃ name ∈ names, v = string name

def Fields.Holds : Fields → List (Text × Json) → Prop
  | .none, all => all = []
  | .field key shape _ others, all =>
    ∃ v rest, all = (key, v) :: rest ∧ shape.Holds v ∧ others.Holds rest
end

/-- The names of the fields. -/
def Fields.keys : Fields → List Text
  | .none => []
  | .field key _ _ others => key :: others.keys

theorem Fields.Holds.keys : ∀ {fields : Fields} {fs : List (Text × Json)}, fields.Holds fs →
    fs.map Prod.fst = fields.keys
  | .none, _, rfl => rfl
  | .field key _ _ _, _, ⟨_, _, rfl, _, h⟩ => congrArg (key :: ·) (Fields.Holds.keys h)

/-- If the names of the fields differ, so do those of each record. -/
theorem Shape.holds_record {name : Text} {fields : Fields} (hn : fields.keys.Nodup)
    (h : fields.Holds fs) :
    (Shape.record name fields).Holds (object fs) :=
  ⟨fs, rfl, h.keys ▸ hn, h⟩

/-- Every shape passes over blanks first. -/
theorem Shape.read_behind_blanks (shape : Shape) (hb : ∀ c ∈ gap, isSpace c = true) (t : Text) :
    shape.read (gap ++ t) = shape.read t := by
  cases shape <;> simp only [Shape.read, readFlag, readText, readCount, readRecord, readChoice,
    skip_append hb]

section Records
variable {readers : List FieldReader} {r : FieldReader} {slots : Slots} {fuel : Nat} {first : Bool}
  {l : Layout} {level : Nat}

/-- The field under a key reads the written form of its value, also behind blanks. -/
structure ReadsSlot (w : Text) (r : FieldReader) (f : Text × Json) : Prop where
  key : r.key = f.1
  blanks : ∀ b t, (∀ c ∈ b, isSpace c = true) → r.read (b ++ t) = r.read t
  value : ∀ rest, Apart rest → r.read (w ++ rest) = .ok (f.2, rest)

/-- A field as it stands in the slots. -/
def slot (f : Text × Json) : Text × Option Json := (f.1, some f.2)

/-- A field behind its opening quote, and what follows. -/
def Layout.openField (l : Layout) (level : Nat) (f : Text × Json) (rest : Text) : Text :=
  f.1.flatMap escape ++ '"' :: ':' :: (l.space ++ (l.write level f.2 ++ rest))

theorem fieldText_append (l : Layout) (level : Nat) (f : Text × Json) (rest : Text) :
    l.fieldText level f ++ rest = '"' :: l.openField level f rest := by
  simp [Layout.fieldText, Layout.openField, quote]

/-- The reader that is found under the name of a field reads it as it is written at a level. -/
def HasReader (l : Layout) (level : Nat) (readers : List FieldReader) (f : Text × Json) : Prop :=
  ∃ r, readers.find? (fun r => r.key = f.1) = some r ∧ ReadsSlot (l.write level f.2) r f

theorem readFields_step (h : HasReader l level readers f) (hnew : f.1 ∉ slots.map Prod.fst)
    (hrest : Apart rest) (hn : nextKey first t = .ok (.more (l.openField level f rest))) :
    readFields readers (fuel + 1) first slots t =
      readFields readers fuel false (slot f :: slots) rest := by
  obtain ⟨r, hfind, hr⟩ := h
  have hcolon : isSpace ':' = false := by decide
  have hany : slots.any (fun s => s.1 = f.1) = false := by
    rw [List.any_eq_false]
    intro s hs he
    exact hnew (List.mem_map.mpr ⟨s, hs, of_decide_eq_true he⟩)
  simp only [readFields, hn, Layout.openField, stringBody_flatMap spells_escape, hfind, hany,
    afterColon, skip_cons hcolon, hr.blanks l.space _ l.space_blank, hr.value rest hrest, slot,
      bind, Except.bind, Bool.false_eq_true, if_false]

/-- Where the keys differ, an entry is the one found under its key. -/
theorem find?_of_nodup {α : Type} {key : α → Text} {xs : List α} {x : α} (h : (xs.map key).Nodup)
    (hx : x ∈ xs) : xs.find? (fun y => key y = key x) = some x := by
  induction xs with
  | nil => cases hx
  | cons y xs ih =>
    rw [List.map_cons, List.nodup_cons] at h
    cases List.mem_cons.mp hx with
    | inl hx => simp [hx]
    | inr hx =>
      have hne : key y ≠ key x := fun he => h.1 (he ▸ List.mem_map_of_mem hx)
      rw [List.find?_cons_of_neg (by simpa using hne), ih h.2 hx]

theorem settled_of_find? (h : List.Forall₂ (fun r f => r.key = f.1) readers fs)
    (hs : ∀ f ∈ fs, slots.find? (fun s => s.1 = f.1) = some (slot f)) :
    settled readers slots = .ok fs := by
  induction h with
  | nil => rfl
  | @cons r f readers fs hr _ ih =>
    rw [List.forall_mem_cons] at hs
    have ih := ih hs.2
    rw [settled] at ih ⊢
    rw [List.mapM_cons, ih, hr, hs.1]
    simp [slot, bind, Except.bind, pure, Except.pure]

/-- Each field has a reader that reads it as it is written at a level. -/
def ReadsSlots (l : Layout) (level : Nat) (readers : List FieldReader) (fs : List (Text × Json)) :
    Prop :=
  List.Forall₂ (fun r f => ReadsSlot (l.write level f.2) r f) readers fs

theorem ReadsSlots.keys (h : ReadsSlots l level readers fs) :
    readers.map FieldReader.key = fs.map Prod.fst := by
  rw [← List.forall₂_eq_eq_eq, List.forall₂_map_left_iff, List.forall₂_map_right_iff]
  exact h.imp fun _ _ hr => hr.key

theorem ReadsSlots.hasReader (h : ReadsSlots l level readers fs) (hn : (fs.map Prod.fst).Nodup) :
    ∀ f ∈ fs, HasReader l level readers f := by
  intro f hf
  have hkeys : (readers.map FieldReader.key).Nodup := h.keys ▸ hn
  obtain ⟨i, hi, rfl⟩ := List.getElem_of_mem hf
  have hr := List.Forall₂.get h (h.length_eq ▸ hi) hi
  have hfind := find?_of_nodup hkeys (List.get_mem readers ⟨i, h.length_eq ▸ hi⟩)
  rw [hr.key] at hfind
  exact ⟨_, hfind, hr⟩

/-- What follows a field: the other fields, each behind a comma, and the end of the object. -/
def Layout.behindField (l : Layout) (level : Nat) (fs : List (Text × Json)) (back rest : Text) :
    Text :=
  fs.flatMap (fun f => ',' :: l.line level ++ l.fieldText level f) ++ (back ++ '\x7d' :: rest)

theorem behindField_cons (l : Layout) (level : Nat) (f : Text × Json) (fs : List (Text × Json))
    (back rest : Text) : l.behindField level (f :: fs) back rest =
      ',' :: (l.line level ++ '"' :: l.openField level f (l.behindField level fs back rest)) := by
  simp [Layout.behindField, List.append_assoc, ← fieldText_append]

theorem apart_behindField (hb : ∀ c ∈ back, isSpace c = true) (fs : List (Text × Json))
    (rest : Text) :
    Apart (l.behindField level fs back rest) := by
  cases fs with
  | nil => exact (apart_cons (by decide) rest).behind_blanks hb
  | cons f fs =>
    rw [behindField_cons]
    exact apart_cons (by decide) _

/-- The slots are filled from the back, and each key is new when its field is read. -/
theorem readFields_behind (h : ∀ f ∈ fs, HasReader l level readers f)
    (hn : (fs.map Prod.fst ++ slots.map Prod.fst).Nodup) (hb : ∀ c ∈ back, isSpace c = true)
    (hf : fs.length < fuel) (rest : Text) :
    readFields readers fuel false slots (l.behindField level fs back rest) =
      .ok ((fs.map slot).reverse ++ slots, rest) := by
  induction fs generalizing fuel slots with
  | nil =>
    obtain ⟨n, rfl⟩ := Nat.exists_eq_add_of_lt hf
    simp [readFields, Layout.behindField, nextKey_close hb, bind, Except.bind]
  | cons f fs ih =>
    obtain ⟨n, rfl⟩ := Nat.exists_eq_add_of_lt hf
    rw [List.forall_mem_cons] at h
    obtain ⟨hfield, htail⟩ := h
    have hnew : f.1 ∉ slots.map Prod.fst := by
      rw [List.map_cons, List.cons_append, List.nodup_cons] at hn
      exact fun hm => hn.1 (List.mem_append_right _ hm)
    have hothers : (fs.map Prod.fst ++ (slot f :: slots).map Prod.fst).Nodup :=
      List.perm_middle.nodup_iff.mpr hn
    have hl : fs.length < (f :: fs).length + n := by
      rw [List.length_cons]
      omega
    have hkey :=
      nextKey_comma (l.line_blank level) (l.openField level f (l.behindField level fs back rest))
    rw [behindField_cons, readFields_step hfield hnew (apart_behindField hb fs rest) hkey,
      ih htail hothers hl]
    simp

theorem readFields_join (h : ∀ f ∈ fs, HasReader l level readers f)
    (hn : (fs.map Prod.fst).Nodup) (hfr : ∀ c ∈ front, isSpace c = true)
    (hb : ∀ c ∈ back, isSpace c = true) (hf : fs.length < fuel) (rest : Text) :
    readFields readers fuel true [] (front ++
        (Text.join (',' :: l.line level)
          (fs.map (l.fieldText level)) ++ (back ++ '\x7d' :: rest))) =
      .ok ((fs.map slot).reverse, rest) := by
  obtain ⟨n, rfl⟩ := Nat.exists_eq_add_of_lt hf
  cases fs with
  | nil =>
    have hblank : ∀ c ∈ front ++ back, isSpace c = true := by
      intro c hc
      exact (List.mem_append.mp hc).elim (hfr c) (hb c)
    have hclose := nextKey_close hblank true rest
    rw [List.append_assoc] at hclose
    simp [readFields, Text.join, hclose, bind, Except.bind]
  | cons f fs =>
    rw [List.forall_mem_cons] at h
    obtain ⟨hfield, htail⟩ := h
    have hothers : (fs.map Prod.fst ++ [slot f].map Prod.fst).Nodup :=
      (List.perm_append_singleton f.1 _).nodup_iff.mpr hn
    have hl : fs.length < (f :: fs).length + n := by
      rw [List.length_cons]
      omega
    have htext : Text.join (',' :: l.line level) ((f :: fs).map (l.fieldText level)) ++
        (back ++ '\x7d' :: rest) =
          '"' :: l.openField level f (l.behindField level fs back rest) := by
      rw [List.map_cons, Text.join_cons, List.flatMap_map, List.append_assoc, fieldText_append]
      rfl
    have hkey := nextKey_first hfr (l.openField level f (l.behindField level fs back rest))
    have hnew : f.1 ∉ ([] : Slots).map Prod.fst := by simp
    rw [htext, readFields_step hfield hnew (apart_behindField hb fs rest) hkey,
      readFields_behind htail hothers hb hl]
    simp

/-- The keys tell the slots apart, so each reader finds the value of its field. -/
theorem settled_slots (h : ReadsSlots l level readers fs) (hn : (fs.map Prod.fst).Nodup) :
    settled readers (fs.map slot).reverse = .ok fs := by
  have hkeys : (((fs.map slot).reverse).map Prod.fst).Nodup := by
    rw [List.map_reverse, (List.reverse_perm _).nodup_iff, List.map_map]
    exact hn
  refine settled_of_find? (h.imp fun _ _ hr => hr.key) fun f hf => ?_
  exact find?_of_nodup hkeys (List.mem_reverse.mpr (List.mem_map_of_mem hf))

theorem readRecord_enclose {name : Text} (h : ReadsSlots l (level + 1) readers fs)
    (hn : (fs.map Prod.fst).Nodup) (rest : Text) :
    readRecord name readers (l.enclose '\x7b' '\x7d' level (l.writeFields (level + 1) fs) ++ rest) =
      .ok (object fs, rest) := by
  have hs : isSpace '\x7b' = false := by decide
  have hl := length_le_length_join (List.cons_ne_nil ',' (l.line (level + 1)))
    (fs.map (l.fieldText (level + 1)))
  rw [List.length_map] at hl
  rw [Layout.writeFields_eq_map]
  simp only [Layout.enclose, List.cons_append, List.append_assoc, List.nil_append]
  simp only [readRecord, skip_cons hs]
  rw [readFields_join (h.hasReader hn) hn (l.front_blank level _) (l.back_blank level _)]
  · simp only [settled_slots h hn, bind, Except.bind]
  · simp only [List.length_append, List.length_cons]
    omega

end Records

section Shapes
variable {l : Layout} {level : Nat} {v : Json}

/-- A written value begins with neither a blank nor a closing bracket, and no value but null begins
as null does. -/
theorem Shape.Holds.head :
    ∀ {shape : Shape} {v : Json}, shape.Holds v → ∀ (l : Layout) (level : Nat), ∃ c t,
      l.write level v = c :: t ∧ isSpace c = false ∧ c ≠ ']' ∧ (c = 'n' → v = null)
  | .flag, _, ⟨true, rfl⟩, _, _ => ⟨'t', _, rfl, by decide, by decide, by simp⟩
  | .flag, _, ⟨false, rfl⟩, _, _ => ⟨'f', _, rfl, by decide, by decide, by simp⟩
  | .text _, _, ⟨_, rfl⟩, _, _ => ⟨'"', _, rfl, by decide, by decide, by simp⟩
  | .count, _, ⟨n, _, rfl⟩, _, _ => by
    obtain ⟨c, t, ht, hc⟩ := Text.exists_digit_cons n
    have hnull : c ≠ 'n' := ne_of_isDigit hc rfl
    exact ⟨c, t, ht, isSpace_of_isDigit hc, ne_of_isDigit hc rfl, fun h => absurd h hnull⟩
  | .optional _, _, .inl rfl, _, _ => ⟨'n', _, rfl, by decide, by decide, fun _ => rfl⟩
  | .optional _, _, .inr h, l, level => Shape.Holds.head h l level
  | .list _, _, ⟨_, rfl, _⟩, _, _ => ⟨'[', _, rfl, by decide, by decide, by simp⟩
  | .record _ _, _, ⟨_, rfl, _⟩, _, _ => ⟨'\x7b', _, rfl, by decide, by decide, by simp⟩
  | .choice _, _, ⟨_, _, rfl⟩, _, _ => ⟨'"', _, rfl, by decide, by decide, by simp⟩

/-- A shape reads a value in each layout, at each level. -/
def Shape.ReadsBack (shape : Shape) (v : Json) : Prop :=
  ∀ (l : Layout) (level : Nat) (rest : Text), Apart rest →
    shape.read (l.write level v ++ rest) = .ok (v, rest)

theorem Shape.Holds.readsApart {shape : Shape} (h : shape.Holds v) (hr : shape.ReadsBack v)
    (l : Layout) (level : Nat) : ReadsApart shape.read (l.write level v) v := by
  obtain ⟨c, t, ht, hs, hc, -⟩ := h.head l level
  exact ⟨⟨c, t, ht, hs, hc⟩, hr l level⟩

theorem readsBack_flag (b : Bool) : Shape.flag.ReadsBack (bool b) := by
  intro l level rest _
  have ht : isSpace 't' = false := by decide
  have hf : isSpace 'f' = false := by decide
  cases b with
  | false => simp [Shape.read, readFlag, compact, skip_cons hf, word]
  | true => simp [Shape.read, readFlag, compact, skip_cons ht, word]

theorem readsBack_text (wanted s : Text) : (Shape.text wanted).ReadsBack (string s) := by
  intro l level rest _
  have hq : isSpace '"' = false := by decide
  simp [Shape.read, readText, quote, skip_cons hq, stringBody_flatMap spells_escape, bind,
    Except.bind]

theorem readsBack_count {n : Nat} (h : n < Nat.pow 2 64) : Shape.count.ReadsBack (ofNat n) := by
  intro l level rest hr
  rw [Layout.write_ofNat, Shape.read, readCount_ofNat h hr]

theorem readsBack_choice {names : List Text} {name : Text} (h : name ∈ names) :
    (Shape.choice names).ReadsBack (string name) := by
  intro l level rest _
  have hq : isSpace '"' = false := by decide
  simp [Shape.read, readChoice, quote, skip_cons hq, stringBody_flatMap spells_escape,
    knownName, h, bind, Except.bind]

theorem readsBack_null (inner : Shape) : (Shape.optional inner).ReadsBack null := by
  intro l level rest _
  have hn : isSpace 'n' = false := by decide
  simp [Shape.read, skip_cons hn, word]

/-- Under an optional shape a value that is not null is read under the inner one, as its text
shows. -/
theorem readsBack_optional {inner : Shape} (h : inner.Holds v) (hr : inner.ReadsBack v) :
    (Shape.optional inner).ReadsBack v := by
  by_cases hv : v = null
  · exact hv ▸ readsBack_null inner
  · intro l level rest hrest
    obtain ⟨c, t, ht, hs, -, hnull⟩ := h.head l level
    have hread := hr l level rest hrest
    have hc : c ≠ 'n' := fun he => hv (hnull he)
    rw [ht, List.cons_append] at hread ⊢
    simp only [Shape.read, skip_cons hs]
    split
    · next he => exact absurd (List.cons.inj he).1 hc
    · exact hread

theorem readsBack_list {item : Shape} {all : List Json}
    (h : ∀ x ∈ all, item.Holds x ∧ item.ReadsBack x) :
    (Shape.list item).ReadsBack (array all) := by
  intro l level rest _
  have hs : isSpace '[' = false := by decide
  have hparts : List.Forall₂ (ReadsApart item.read) (all.map (l.write (level + 1))) all := by
    rw [List.forall₂_map_left_iff, List.forall₂_same]
    exact fun x hx => (h x hx).1.readsApart (h x hx).2 l (level + 1)
  have hl := length_le_length_join (List.cons_ne_nil ',' (l.line (level + 1)))
    (all.map (l.write (level + 1)))
  rw [Layout.write_array, Layout.writeItems_eq_map]
  simp only [Layout.enclose, List.cons_append, List.append_assoc, List.nil_append]
  simp only [Shape.read, skip_cons hs]
  rw [items_join hparts (l.front_blank level _) (l.line_blank (level + 1)) (l.back_blank level _)]
  · rfl
  · simp only [List.length_append, List.length_cons]
    omega

theorem readsBack_record (name : Text) {fields : Fields} (hn : (fs.map Prod.fst).Nodup)
    (h : ∀ (l : Layout) (level : Nat), ReadsSlots l level fields.readers fs) :
    (Shape.record name fields).ReadsBack (object fs) := by
  intro l level rest _
  rw [Layout.write_object, Shape.read, readRecord_enclose (h l (level + 1)) hn]

-- Along the shape: what it holds is taken apart just as the shape is, and each part is a case from
-- above.
mutual
theorem Shape.Holds.readsBack : ∀ {shape : Shape} {v : Json}, shape.Holds v → shape.ReadsBack v
  | .flag, _, ⟨b, rfl⟩ => readsBack_flag b
  | .text wanted, _, ⟨s, rfl⟩ => readsBack_text wanted s
  | .count, _, ⟨_, hn, rfl⟩ => readsBack_count hn
  | .optional inner, _, .inl rfl => readsBack_null inner
  | .optional _, _, .inr h => readsBack_optional h h.readsBack
  | .list _, _, ⟨_, rfl, hall⟩ => readsBack_list fun x hx => ⟨hall x hx, (hall x hx).readsBack⟩
  | .record name _, _, ⟨_, rfl, hn, hall⟩ => readsBack_record name hn hall.readsSlots
  | .choice _, _, ⟨_, hname, rfl⟩ => readsBack_choice hname

theorem Fields.Holds.readsSlots : ∀ {fields : Fields} {fs : List (Text × Json)}, fields.Holds fs →
    ∀ (l : Layout) (level : Nat), ReadsSlots l level fields.readers fs
  | .none, _, rfl, _, _ => .nil
  | .field _ shape _ _, _, ⟨_, _, rfl, hv, hothers⟩, l, level =>
    .cons ⟨rfl, fun _ t hb => shape.read_behind_blanks hb t, hv.readsBack l level⟩
      (hothers.readsSlots l level)
end

/-- A value of a shape is read back from its written form. -/
theorem Shape.Holds.parse_write {shape : Shape} (h : shape.Holds v) (l : Layout) (level : Nat) :
    shape.parse (l.write level v) = .ok v := by
  have hread := h.readsBack l level [] (by simp [Apart])
  rw [List.append_nil] at hread
  simp [Shape.parse, whole, hread, skip]

theorem Shape.Holds.parse_compact {shape : Shape} (h : shape.Holds v) :
    shape.parse v.compact = .ok v := by
  rw [← Layout.write_dense 0, h.parse_write]

theorem Shape.Holds.parse_pretty {shape : Shape} (h : shape.Holds v) :
    shape.parse v.pretty = .ok v := by
  rw [pretty, ← Layout.write_spread, h.parse_write]

end Shapes
end SourceMarks.Json
