import SourceMarks.Directive.Payload
import SourceMarks.Proofs.Json.Names
import SourceMarks.Proofs.Text.Cut

/-!
The sources of globs and of options. Main statements: reading one succeeds exactly on the texts of
an array of strings, or of an object whose known fields are of the right kind.
-/
namespace SourceMarks.Payload
variable {source : Text} {gs ss : List Text} {o : Options} {items : List Json}
  {fields : List (Text × Json)}

/-- Up to blanks, the text of an array of some strings that is not empty. -/
def IsGlobs (source : Text) (gs : List Text) : Prop :=
  gs ≠ [] ∧ Json.parse source.trim = .ok (.array (gs.map .string))

/-- The base that a field gives: none if it is left out or null. -/
def baseOf? : Option Json → Option (Option Path)
  | none => some none
  | some .null => some none
  | some (.string s) => some (some ⟨s⟩)
  | some _ => none

/-- The form of separators that a field asks for: the plain one if it is left out. -/
def posixOf? : Option Json → Option Bool
  | none => some false
  | some (.bool b) => some b
  | some _ => none

/-- Up to blanks, the text of an object whose fields give some options. -/
def IsOptions (source : Text) (o : Options) : Prop :=
  ∃ fields, Json.parse source.trim = .ok (.object fields) ∧
    baseOf? (Json.field? "base" fields) = some o.base ∧
    posixOf? (Json.field? "posix" fields) = some o.posix

theorem stringsFrom_map_string (index : Nat) (ss : List Text) :
    stringsFrom index (ss.map .string) = .ok ss := by
  induction ss generalizing index with
  | nil => rfl
  | cons s ss ih => rw [List.map_cons, stringsFrom, ih]; rfl

theorem stringsFrom_eq_ok {index : Nat} (h : stringsFrom index items = .ok ss) :
    items = ss.map .string := by
  induction items generalizing index ss with
  | nil =>
    cases h
    rfl
  | cons item items ih =>
    cases item with
    | string s =>
      obtain ⟨others, ho, rfl⟩ := map_eq_ok_iff.mp h
      rw [ih ho]
      rfl
    | _ => cases h

theorem globs_eq_ok_iff : globs source = .ok gs ↔ IsGlobs source gs := by
  rw [globs, IsGlobs]
  constructor
  · intro h
    split at h
    · cases h
    · cases h
    · next items hne hp =>
      obtain rfl := stringsFrom_eq_ok h
      refine ⟨fun he => hne ?_, hp⟩
      rw [he]
      rfl
    · cases h
  · intro h
    obtain ⟨hne, hp⟩ := h
    obtain ⟨g, gs, rfl⟩ := List.exists_cons_of_ne_nil hne
    rw [hp]
    exact stringsFrom_map_string 0 (g :: gs)

/-- How the base is fitted, and how the form of separators is. -/
def baseFit : Json.FieldFit :=
  ⟨"base", (Json.Shape.optional (.text "path string")).fit, some .null, true⟩

def posixFit : Json.FieldFit := ⟨"posix", Json.Shape.flag.fit, some (.bool false), false⟩

theorem fits_options : Options.shape.fit (.object fields) =
    Json.fitRecord "LoadOptions" [baseFit, posixFit] (.object fields) := rfl

theorem fit_base_iff {v u : Json} :
    baseFit.fit v = .ok u ↔ u = v ∧ ∃ b, baseOf? (some v) = some b := by
  cases v <;> simp [baseFit, Json.Shape.fit, baseOf?, Json.unfit, eq_comm]

theorem fit_posix_iff {v u : Json} :
    posixFit.fit v = .ok u ↔ u = v ∧ ∃ b, posixOf? (some v) = some b := by
  cases v <;> simp [posixFit, Json.Shape.fit, posixOf?, Json.unfit, eq_comm]

/-- The fields that fit are the known ones as they are. -/
theorem known_base {known : List (Text × Json)}
    (h : Json.fitFields [baseFit, posixFit] fields = .ok known) :
    Json.field? "base" known = Json.field? "base" fields ∧
      ∃ b, baseOf? (Json.field? "base" fields) = some b := by
  have hf := Json.field?_fitFields h "base" (f := baseFit) rfl
  split at hf
  · next hn => exact ⟨hf.trans hn.symm, none, by rw [hn]; rfl⟩
  · next v hv =>
    obtain ⟨u, hu, hk⟩ := hf
    obtain ⟨rfl, hb⟩ := fit_base_iff.mp hu
    exact ⟨hk.trans hv.symm, hv ▸ hb⟩

theorem known_posix {known : List (Text × Json)}
    (h : Json.fitFields [baseFit, posixFit] fields = .ok known) :
    Json.field? "posix" known = Json.field? "posix" fields ∧
      ∃ b, posixOf? (Json.field? "posix" fields) = some b := by
  have hf := Json.field?_fitFields h "posix" (f := posixFit) rfl
  split at hf
  · next hn => exact ⟨hf.trans hn.symm, false, by rw [hn]; rfl⟩
  · next v hv =>
    obtain ⟨u, hu, hk⟩ := hf
    obtain ⟨rfl, hb⟩ := fit_posix_iff.mp hu
    exact ⟨hk.trans hv.symm, hv ▸ hb⟩

theorem exists_known (hs : Json.Sorted fields) {b : Option Path} {p : Bool}
    (hb : baseOf? (Json.field? "base" fields) = some b)
    (hp : posixOf? (Json.field? "posix" fields) = some p) :
    ∃ known, Json.fitFields [baseFit, posixFit] fields = .ok known := by
  refine Json.exists_fitFields fun e he f hf => ?_
  have hv := Json.field?_of_mem hs he
  have hk : f.key = e.1 := by simpa using List.find?_some hf
  have hm := List.mem_of_find?_eq_some hf
  simp only [List.mem_cons, List.not_mem_nil, or_false] at hm
  cases hm with
  | inl hm =>
    subst hm
    rw [← hk] at hv
    exact ⟨e.2, fit_base_iff.mpr ⟨rfl, b, by rw [← hb, ← hv]; rfl⟩⟩
  | inr hm =>
    subst hm
    rw [← hk] at hv
    exact ⟨e.2, fit_posix_iff.mpr ⟨rfl, p, by rw [← hp, ← hv]; rfl⟩⟩

theorem fit_options_eq {known : List (Text × Json)}
    (h : Json.fitFields [baseFit, posixFit] fields = .ok known) :
    Options.shape.fit (.object fields) =
      .ok (.object [("base", (Json.field? "base" fields).getD .null),
        ("posix", (Json.field? "posix" fields).getD (.bool false))]) := by
  have hbase : baseFit.key = "base" ∧ baseFit.fallback = some .null := ⟨rfl, rfl⟩
  have hposix : posixFit.key = "posix" ∧ posixFit.fallback = some (.bool false) := ⟨rfl, rfl⟩
  rw [fits_options, Json.fitRecord, h, ← (known_base h).1, ← (known_posix h).1]
  simp only [List.mapM_cons, List.mapM_nil, bind, Except.bind, pure, Except.pure, hbase, hposix]
  generalize Json.field? "base" known = v
  generalize Json.field? "posix" known = w
  cases v <;> cases w <;> rfl

theorem ofJson?_settled {v w : Option Json} {b : Option Path} {p : Bool}
    (hb : baseOf? v = some b) (hp : posixOf? w = some p) :
    Options.ofJson? (.object [("base", v.getD .null), ("posix", w.getD (.bool false))]) =
      some ⟨b, p⟩ := by
  unfold baseOf? at hb
  unfold posixOf? at hp
  split at hb <;> split at hp <;> cases hb <;> cases hp <;> rfl

theorem options_eq_ok_iff : options source = .ok o ↔ IsOptions source o := by
  constructor
  · intro h
    rw [options] at h
    split at h
    · cases h
    · next fields hparse =>
      split at h
      · next v hv =>
        rw [fits_options, Json.fitRecord] at hv
        obtain ⟨known, hk, -⟩ := bind_eq_ok_iff.mp hv
        rw [← Json.fitRecord, ← fits_options, fit_options_eq hk] at hv
        obtain ⟨b, hb⟩ := (known_base hk).2
        obtain ⟨p, hp⟩ := (known_posix hk).2
        cases hv
        rw [ofJson?_settled hb hp] at h
        cases h
        exact ⟨fields, hparse, hb, hp⟩
      · cases h
    · cases h
  · intro h
    obtain ⟨fields, hparse, hb, hp⟩ := h
    obtain ⟨known, hk⟩ := exists_known (Json.sorted_of_parse hparse) hb hp
    rw [options, hparse]
    simp only [fit_options_eq hk, ofJson?_settled hb hp, Option.getD_some]

end SourceMarks.Payload
