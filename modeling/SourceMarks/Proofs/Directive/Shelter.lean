import SourceMarks.Directive.Basic
import SourceMarks.Marker.Basic
import SourceMarks.Proofs.Json.Spelling

/-!
JSON values in a form that can stand in a load marker, since nothing in it closes the marker. Main
statements: lists of strings and options are read back from it.
-/
namespace SourceMarks

namespace Json
variable {c : Char} {w : Text}

/-- Single quotes and closing parentheses are written as codes, all else as it is. -/
def shelter (c : Char) : Text :=
  if c = '\'' then ['\\', 'u', '0', '0', '2', '7']
  else if c = ')' then ['\\', 'u', '0', '0', '2', '9']
  else [c]

/-- The compact form of a value, sheltered from what surrounds it in a marker. -/
def sheltered (v : Json) : Text := (compact v).flatMap shelter

def spell (c : Char) : Text := (escape c).flatMap shelter

/-- Whether a character neither closes a payload nor is changed in it. -/
def isTame (c : Char) : Bool := c != '\'' && Marker.inPayload c

theorem isTame_hexDigit : ∀ n, n < 16 → isTame (hexDigit n) = true := by decide

theorem shelter_of_isTame (h : isTame c = true) : shelter c = [c] := by
  simp only [isTame, Marker.inPayload, Bool.and_eq_true, bne_iff_ne] at h
  simp [shelter, h]

theorem flatMap_shelter (h : w.all isTame = true) : w.flatMap shelter = w := by
  induction w with
  | nil => rfl
  | cons c w ih =>
    rw [List.all_cons, Bool.and_eq_true] at h
    rw [List.flatMap_cons, shelter_of_isTame h.1, ih h.2, List.singleton_append]

theorem all_isTame_code {m n : Nat} (hm : m < 16) (hn : n < 16) :
    (['\\', 'u', '0', '0', hexDigit m, hexDigit n] : Text).all isTame = true := by
  simp only [List.all_cons, isTame_hexDigit m hm, isTame_hexDigit n hn]
  decide

theorem all_isTame_letter :
    ∀ d ∈ ['"', '\\', 'b', 't', 'n', 'f', 'r'], (['\\', d] : Text).all isTame = true := by
  simp [isTame, Marker.inPayload, Marker.inLine]

theorem all_isTame_escape (hq : c ≠ '\'') (hp : c ≠ ')') : (escape c).all isTame = true := by
  obtain ⟨he, hs, -⟩ | ⟨d, hd, he, -⟩ | ⟨m, n, hm, hn, he, -⟩ := escape_forms c
  · simp only [shortEscapes, List.mem_cons, List.not_mem_nil, or_false, not_or] at hs
    simp [he, isTame, Marker.inPayload, Marker.inLine, hq, hp, hs]
  · rw [he, all_isTame_letter d hd]
  · rw [he, all_isTame_code hm hn]

theorem spell_of_ne (hq : c ≠ '\'') (hp : c ≠ ')') : spell c = escape c :=
  flatMap_shelter (all_isTame_escape hq hp)

theorem all_isTame_spell (c : Char) : (spell c).all isTame = true := by
  by_cases hq : c = '\''
  · subst hq
    decide
  by_cases hp : c = ')'
  · subst hp
    decide
  rw [spell_of_ne hq hp, all_isTame_escape hq hp]

theorem spells_spell (c : Char) : Spells (spell c) c := by
  by_cases hq : c = '\''
  · subst hq
    exact spells_code (m := 2) (n := 7) (by decide) (by decide) rfl
  by_cases hp : c = ')'
  · subst hp
    exact spells_code (m := 2) (n := 9) (by decide) (by decide) rfl
  rw [spell_of_ne hq hp]
  exact spells_escape c

theorem sheltered_string (s : Text) :
    sheltered (.string s) = '"' :: (s.flatMap spell ++ ['"']) := by
  have hq : shelter '"' = ['"'] := rfl
  simp only [sheltered, compact, quote, List.flatMap_cons, List.flatMap_append, List.flatMap_assoc,
    List.flatMap_nil, hq, List.singleton_append, List.append_nil]
  rfl

theorem flatMap_join (f : Char → Text) (sep : Text) (ws : List Text) :
    (Text.join sep ws).flatMap f = Text.join (sep.flatMap f) (ws.map (·.flatMap f)) := by
  cases ws with
  | nil => rfl
  | cons w ws =>
    simp only [List.map_cons, Text.join_cons, List.flatMap_append, List.flatMap_assoc,
      List.flatMap_map]

theorem compactItems_eq_map (items : List Json) : compactItems items = items.map compact := by
  induction items with
  | nil => rfl
  | cons v items ih => rw [compactItems, ih, List.map_cons]

theorem sheltered_array (items : List Json) : sheltered (.array items) =
    '[' :: (Text.join [','] (items.map sheltered) ++ [']']) := by
  have ho : shelter '[' = ['['] := rfl
  have hc : [']'].flatMap shelter = [']'] := rfl
  have hs : [','].flatMap shelter = [','] := rfl
  rw [sheltered, compact, List.flatMap_cons, List.flatMap_append, flatMap_join,
    compactItems_eq_map, List.map_map, ho, hc, hs]
  rfl

theorem compactFields_eq_map (fs : List (Text × Json)) :
    compactFields fs = fs.map fun f => quote f.1 ++ [':'] ++ compact f.2 := by
  induction fs with
  | nil => rfl
  | cons f fs ih => rw [compactFields, ih, List.map_cons]

def shelteredField (f : Text × Json) : Text × Text := (f.1.flatMap spell, sheltered f.2)

theorem sheltered_field (f : Text × Json) :
    (quote f.1 ++ [':'] ++ compact f.2).flatMap shelter = fieldText (shelteredField f) := by
  have hn := sheltered_string f.1
  have hc : [':'].flatMap shelter = [':'] := rfl
  rw [sheltered, compact] at hn
  rw [List.flatMap_append, List.flatMap_append, hn, hc]
  simp [fieldText, shelteredField, sheltered]

theorem sheltered_object (fs : List (Text × Json)) : sheltered (.object fs) =
    '\x7b' :: (Text.join [','] ((fs.map shelteredField).map fieldText) ++ ['\x7d']) := by
  have ho : shelter '\x7b' = ['\x7b'] := rfl
  have hc : ['\x7d'].flatMap shelter = ['\x7d'] := rfl
  have hs : [','].flatMap shelter = [','] := rfl
  rw [sheltered, compact, List.flatMap_cons, List.flatMap_append, flatMap_join,
    compactFields_eq_map, List.map_map, List.map_map, ho, hc, hs]
  simp only [Function.comp_def, sheltered_field]
  rfl

theorem sheltered_bool (b : Bool) : sheltered (.bool b) = compact (.bool b) := by
  cases b <;> rfl

section Reading
variable (depth : Nat)

theorem reads_sheltered_string (s : Text) :
    Reads (value (depth + 1)) (sheltered (.string s)) (.string s) := by
  rw [sheltered_string]
  exact reads_string spells_spell s

theorem reads_sheltered_text? (s : Option Text) :
    Reads (value (depth + 1)) (sheltered (.ofText? s)) (.ofText? s) := by
  cases s with
  | none => exact reads_null
  | some s => exact reads_sheltered_string depth s

theorem reads_sheltered_bool (b : Bool) :
    Reads (value (depth + 1)) (sheltered (.bool b)) (.bool b) := by
  rw [sheltered_bool]
  exact reads_bool b

theorem readsField_sheltered {f : Text × Json}
    (h : Reads (value (depth + 1)) (sheltered f.2) f.2) :
    ReadsField (value (depth + 1)) (shelteredField f) f :=
  ⟨fun rest => stringBody_flatMap spells_spell f.1 rest, h⟩

theorem reads_sheltered_strings (ss : List Text) :
    Reads (value (depth + 2)) (sheltered (.array (ss.map .string))) (.array (ss.map .string)) := by
  rw [sheltered_array]
  refine reads_array ?_ (by simp)
  rw [List.map_map, List.forall₂_map_left_iff, List.forall₂_map_right_iff, List.forall₂_same]
  exact fun s _ => reads_sheltered_string _ s

theorem reads_sheltered_options (o : Options) :
    Reads (value (depth + 2)) (sheltered o.toJson) o.toJson := by
  have hb := readsField_sheltered depth (f := ("base", .ofText? (o.base.map Path.text)))
    (reads_sheltered_text? depth _)
  have hp := readsField_sheltered depth (f := ("posix", .bool o.posix))
    (reads_sheltered_bool depth _)
  rw [Options.toJson, sheltered_object]
  exact reads_object (.cons hb (.cons hp .nil))

end Reading

section Tame

theorem all_join {p : Char → Bool} {sep : Text} {ws : List Text} (hs : sep.all p = true)
    (h : ∀ w ∈ ws, w.all p = true) : (Text.join sep ws).all p = true := by
  cases ws with
  | nil => rfl
  | cons w ws =>
    rw [Text.join_cons, List.all_append, h w List.mem_cons_self, Bool.true_and, List.all_flatMap,
      List.all_eq_true]
    intro v hv
    simp [hs, h v (List.mem_cons_of_mem w hv)]

theorem all_isTame_flatMap_spell (s : Text) : (s.flatMap spell).all isTame = true := by
  rw [List.all_flatMap, List.all_eq_true]
  exact fun c _ => all_isTame_spell c

theorem all_isTame_string (s : Text) : (sheltered (.string s)).all isTame = true := by
  have hq : isTame '"' = true := rfl
  rw [sheltered_string, List.all_cons, List.all_append, all_isTame_flatMap_spell]
  simp [hq]

theorem all_isTame_fieldText {f : Text × Json} (h : (sheltered f.2).all isTame = true) :
    (fieldText (shelteredField f)).all isTame = true := by
  have hq : isTame '"' = true := rfl
  have hc : isTame ':' = true := rfl
  simp only [fieldText, shelteredField, List.all_cons, List.all_append,
    all_isTame_flatMap_spell, h, hq, hc, Bool.and_self]

theorem all_isTame_strings (ss : List Text) :
    (sheltered (.array (ss.map .string))).all isTame = true := by
  have hj : (Text.join [','] ((ss.map Json.string).map sheltered)).all isTame = true := by
    refine all_join rfl fun w hw => ?_
    simp only [List.map_map, List.mem_map, Function.comp_apply] at hw
    obtain ⟨s, -, rfl⟩ := hw
    exact all_isTame_string s
  rw [sheltered_array, List.all_cons, List.all_append, hj]
  rfl

theorem all_isTame_options (o : Options) : (sheltered o.toJson).all isTame = true := by
  have hb : (sheltered (.ofText? (o.base.map Path.text))).all isTame = true := by
    cases o.base with
    | none => rfl
    | some b => exact all_isTame_string b.text
  have hp : (sheltered (.bool o.posix)).all isTame = true := by
    cases o.posix <;> rfl
  rw [Options.toJson, sheltered_object, List.all_cons, List.all_append, all_join rfl]
  · rfl
  · intro w hw
    simp only [List.map_cons, List.map_nil, List.mem_cons, List.not_mem_nil, or_false] at hw
    obtain rfl | rfl := hw
    · exact all_isTame_fieldText hb
    · exact all_isTame_fieldText hp

end Tame

end Json
end SourceMarks
