import SourceMarks.Json.Shape
import SourceMarks.Proofs.Json.Consumption
import SourceMarks.Proofs.Text.Order

/-!
The names of an object's fields. An object that was read has them in strict byte order, so a field
is known by its name, and fitting the fields to a record leaves each known one under its name.
-/
namespace SourceMarks.Json
variable {name key : Text} {v : Json} {fs known : List (Text × Json)} {fits : List FieldFit}
  {f : FieldFit} {t rest : Text} {depth : Nat}

/-- The names stand in strict byte order. -/
def Sorted (fs : List (Text × Json)) : Prop := (fs.map Prod.fst).Pairwise Text.Precedes

theorem mem_names_putField (h : key ∈ (putField name v fs).map Prod.fst) :
    key = name ∨ key ∈ fs.map Prod.fst := by
  induction fs with
  | nil => simpa [putField] using h
  | cons e fs ih =>
    rw [putField] at h
    split at h
    · next he => simpa [he] using h
    · split at h
      · simpa using h
      · rw [List.map_cons, List.mem_cons] at h
        cases h with
        | inl h => exact Or.inr (by simp [h])
        | inr h => exact (ih h).imp id (List.mem_cons_of_mem _)

theorem sorted_putField (h : Sorted fs) (name : Text) (v : Json) :
    Sorted (putField name v fs) := by
  induction fs with
  | nil => simp [putField, Sorted]
  | cons e fs ih =>
    obtain ⟨hfirst, htail⟩ := List.pairwise_cons.mp h
    rw [putField]
    split
    · next he =>
      rw [← he]
      exact List.pairwise_cons.mpr ⟨hfirst, htail⟩
    · next hne =>
      split
      · next hle =>
        have hname : Text.Precedes name e.1 := ⟨hle, Ne.symm hne⟩
        refine List.pairwise_cons.mpr ⟨fun key hk => ?_, h⟩
        cases List.mem_cons.mp hk with
        | inl hk => exact hk ▸ hname
        | inr hk => exact hname.trans (hfirst key hk)
      · next hle =>
        have hname := Text.precedes_of_not_le (by simpa using hle)
        refine List.pairwise_cons.mpr ⟨fun key hk => ?_, ih htail⟩
        obtain rfl | hk := mem_names_putField hk
        · exact hname
        · exact hfirst key hk

theorem sorted_foldl_putField (all : List (Text × Json)) (h : Sorted fs) :
    Sorted (all.foldl (fun sorted f => putField f.1 f.2 sorted) fs) := by
  induction all generalizing fs with
  | nil => exact h
  | cons e all ih => exact ih (sorted_putField h e.1 e.2)

theorem sorted_of_value (h : value depth t = .ok (.object fs, rest)) : Sorted fs := by
  cases depth with
  | zero => cases h
  | succ depth =>
    unfold value at h
    split at h
    · cases h
    · cases (of_word h).1
    · cases (of_word h).1
    · cases (of_word h).1
    · obtain ⟨_, -, h⟩ := bind_eq_ok_iff.mp h
      cases h
    · obtain ⟨_, -, h⟩ := bind_eq_ok_iff.mp h
      cases h
    · split at h
      · cases h
      · obtain ⟨_, -, h⟩ := bind_eq_ok_iff.mp h
        cases h
    · split at h
      · cases h
      · obtain ⟨all, -, h⟩ := bind_eq_ok_iff.mp h
        cases h
        exact sorted_foldl_putField all.1 List.Pairwise.nil
    · split at h
      · obtain ⟨_, -, h⟩ := bind_eq_ok_iff.mp h
        cases h
      · cases h

theorem sorted_of_parse (h : parse t = .ok (.object fs)) : Sorted fs := by
  rw [parse, whole] at h
  split at h
  · cases h
  · next hv =>
    split at h
    · cases h
      exact sorted_of_value hv
    · cases h

/-- A field is the one found under its name. -/
theorem field?_of_mem (hs : Sorted fs) (h : (key, v) ∈ fs) : field? key fs = some v := by
  induction fs with
  | nil => cases h
  | cons e fs ih =>
    obtain ⟨hfirst, htail⟩ := List.pairwise_cons.mp hs
    cases List.mem_cons.mp h with
    | inl h =>
      subst h
      simp [field?]
    | inr h =>
      have hne : e.1 ≠ key := (hfirst key (List.mem_map.mpr ⟨(key, v), h, rfl⟩)).2
      simp [field?, hne, ih htail h]

theorem field?_fitFields (h : fitFields fits fs = .ok known) (key : Text)
    (hf : fits.find? (fun f => f.key = key) = some f) :
    match field? key fs with
    | none => field? key known = none
    | some v => ∃ u, f.fit v = .ok u ∧ field? key known = some u := by
  induction fs generalizing known with
  | nil =>
    cases h
    rfl
  | cons e fs ih =>
    obtain ⟨name, v⟩ := e
    rw [fitFields] at h
    by_cases hk : name = key
    · subst hk
      simp only [hf] at h
      obtain ⟨u, hu, h⟩ := bind_eq_ok_iff.mp h
      obtain ⟨others, -, h⟩ := bind_eq_ok_iff.mp h
      cases h
      simp [field?, hu]
    · simp only [field?, hk, if_false]
      split at h
      · exact ih h
      · obtain ⟨u, -, h⟩ := bind_eq_ok_iff.mp h
        obtain ⟨others, ho, h⟩ := bind_eq_ok_iff.mp h
        cases h
        simpa only [field?, hk, if_false] using ih ho

theorem exists_fitFields (h : ∀ e ∈ fs, ∀ f, fits.find? (fun f => f.key = e.1) = some f →
    ∃ u, f.fit e.2 = .ok u) : ∃ known, fitFields fits fs = .ok known := by
  induction fs with
  | nil => exact ⟨[], rfl⟩
  | cons e fs ih =>
    rw [List.forall_mem_cons] at h
    obtain ⟨known, hk⟩ := ih h.2
    rw [fitFields]
    split
    · exact ⟨known, hk⟩
    · next f hf =>
      obtain ⟨u, hu⟩ := h.1 f hf
      exact ⟨(e.1, u) :: known, by simp [hu, hk, bind, Except.bind]⟩

end SourceMarks.Json
