import SourceMarks.Proofs.Path.Parts

/-! Parents of paths, and what is left of a path below a base. -/
namespace SourceMarks.Path
open PathSymbol
variable {α : Type} [DecidableEq α] [PathSymbol α] {p base : Path α} {n part : Text α}
  {init rest names parts : List (Text α)} {absolute : Bool}

/-- The components of a relative path with some parts. -/
def relativeComponents : List (Text α) → List (Component α)
  | [] => []
  | first :: rest =>
    if first = [dot] then .here :: rest.filterMap component?
    else (first :: rest).filterMap component?

theorem components_of_relative (h : p.isAbsolute = false) :
    p.components = relativeComponents p.parts := by
  rw [components, if_neg (by simp [h])]
  cases p.parts <;> rfl

theorem component?_eq_none_iff : component? part = none ↔ Idle part := by
  by_cases h : part = [] ∨ part = [dot]
  · simp [component?, Idle, h]
  · by_cases hu : part = [dot, dot] <;> simp [component?, Idle, h, hu]

theorem relativeComponents_append (h : init ≠ []) (rest : List (Text α)) :
    relativeComponents (init ++ rest) = relativeComponents init ++ rest.filterMap component? := by
  obtain ⟨x, init, rfl⟩ := List.exists_cons_of_ne_nil h
  by_cases hx : x = [dot]
  · simp [relativeComponents, hx]
  · rw [List.cons_append, relativeComponents, if_neg hx, relativeComponents, if_neg hx,
      ← List.filterMap_append, List.cons_append]

theorem relativeComponents_eq_nil (hh : parts.head? ≠ some [])
    (h : relativeComponents parts = []) : parts = [] := by
  cases parts with
  | nil => rfl
  | cons x parts =>
    have hx : x ≠ [] := fun e => hh (by simp [e])
    by_cases hd : x = [dot]
    · simp [relativeComponents, hd] at h
    · have hc : component? x ≠ none := by simp [component?_eq_none_iff, Idle, hx, hd]
      simp [relativeComponents, hd, hc] at h

theorem filterMap_component?_idle (h : ∀ x ∈ rest, Idle x) : rest.filterMap component? = [] :=
  List.filterMap_eq_nil_iff.mpr fun x hx => component?_eq_none_iff.mpr (h x hx)

theorem relativeComponents_idle (h : init ≠ []) (hi : ∀ x ∈ rest, Idle x) :
    relativeComponents (init ++ rest) = relativeComponents init := by
  rw [relativeComponents_append h, filterMap_component?_idle hi, List.append_nil]

theorem counts_false_iff : counts false part = false ↔ Idle part := by
  by_cases h : part = [] <;> simp [counts, Idle, h]

theorem dropIdleEnd_append (first : Bool) (parts : List (Text α)) :
    ∃ idle, parts = dropIdleEnd first parts ++ idle ∧ ∀ x ∈ idle, Idle x := by
  induction parts generalizing first with
  | nil => exact ⟨[], rfl, by simp⟩
  | cons x parts ih =>
    obtain ⟨idle, hp, hi⟩ := ih false
    rw [dropIdleEnd]
    split
    · next h =>
      rw [h, List.nil_append] at hp
      cases hc : counts first x with
      | true => exact ⟨idle, by simp [hp], hi⟩
      | false =>
        have hx : Idle x := by
          cases first with
          | false => exact counts_false_iff.mp hc
          | true => exact Or.inl (by simpa [counts] using hc)
        exact ⟨x :: idle, by simp [hp], List.forall_mem_cons.mpr ⟨hx, hi⟩⟩
    · exact ⟨idle, by rw [List.cons_append, ← hp], hi⟩

theorem dropIdleEnd_concat (hn : ¬ Idle n) (first : Bool) (init : List (Text α)) :
    dropIdleEnd first (init ++ [n]) = init ++ [n] := by
  induction init generalizing first with
  | nil =>
    have hc : counts first n = true := by
      obtain ⟨h1, h2⟩ := not_or.mp hn
      cases first <;> simp [counts, h1, h2]
    simp [dropIdleEnd, hc]
  | cons x init ih =>
    rw [List.cons_append, dropIdleEnd, ih]
    split
    · next h => simp at h
    · rfl

theorem head?_dropIdleEnd (hh : init.head? ≠ some []) (first : Bool) :
    (dropIdleEnd first init).head? ≠ some [] := by
  obtain ⟨idle, hi, -⟩ := dropIdleEnd_append first init
  intro h
  obtain ⟨t, ht⟩ := List.head?_eq_some_iff.mp h
  rw [ht] at hi
  exact hh (by rw [hi]; rfl)

theorem dropIdleEnd_eq_nil (hh : init.head? ≠ some []) (h : dropIdleEnd true init = []) :
    init = [] := by
  cases init with
  | nil => rfl
  | cons x init =>
    have hx : x ≠ [] := fun e => hh (by simp [e])
    rw [dropIdleEnd] at h
    split at h
    · simp [counts, hx] at h
    · cases h

/-- The components of a path of one kind with some parts behind its root. -/
def bodyComponents (absolute : Bool) (body : List (Text α)) : List (Component α) :=
  if absolute then .root :: body.filterMap component? else relativeComponents body

theorem components_eq (p : Path α) : p.components = bodyComponents p.isAbsolute p.bodyParts := by
  cases ha : p.isAbsolute with
  | false => simpa [bodyComponents, bodyParts_of_relative ha] using components_of_relative ha
  | true => simp [components, bodyComponents, ha, parts_of_absolute ha, component?]

theorem bodyComponents_idle (h : absolute = false → init ≠ []) (hi : ∀ x ∈ rest, Idle x) :
    bodyComponents absolute (init ++ rest) = bodyComponents absolute init := by
  cases absolute with
  | false => exact relativeComponents_idle (h rfl) hi
  | true => simp [bodyComponents, filterMap_component?_idle hi]

theorem withBody_of_absolute (h : p.isAbsolute = true) (body : List (Text α)) :
    p.withBody body = ⟨slash :: Text.join [slash] body⟩ := if_pos h

theorem withBody_of_relative (h : p.isAbsolute = false) (body : List (Text α)) :
    p.withBody body = ofParts body := if_neg (by simp [h])

theorem withBody_bodyParts (p : Path α) : p.withBody p.bodyParts = p := by
  cases ha : p.isAbsolute with
  | false => rw [withBody_of_relative ha, bodyParts_of_relative ha, ofParts_parts]
  | true =>
    have hj := ofParts_parts p
    rw [parts_of_absolute ha, ofParts, Text.join_next slash [] (bodyParts_ne_nil p)] at hj
    rw [withBody_of_absolute ha]
    exact hj

/-- The text of the first parts is in front. -/
theorem prefix_text_withBody (hp : p.bodyParts = init ++ rest) :
    (p.withBody init).text <+: p.text := by
  have hjoin : Text.join [slash] init <+: Text.join [slash] (init ++ rest) := by
    by_cases hi : init = []
    · subst hi
      exact List.nil_prefix
    · by_cases hr : rest = []
      · simp [hr]
      · rw [Text.join_append _ hi hr, List.append_assoc]
        exact List.prefix_append _ _
  nth_rewrite 2 [← withBody_bodyParts p]
  rw [hp]
  cases ha : p.isAbsolute with
  | false =>
    rw [withBody_of_relative ha, withBody_of_relative ha]
    exact hjoin
  | true =>
    rw [withBody_of_absolute ha, withBody_of_absolute ha]
    exact List.cons_prefix_cons.mpr ⟨rfl, hjoin⟩

theorem components_nil : (⟨[]⟩ : Path α).components = [] := rfl

theorem components_slash : (⟨[slash]⟩ : Path α).components = [.root] := by
  simp [components, isAbsolute, parts, Text.split, component?]

section Body
variable (hs : ∀ x ∈ init, slash ∉ x) (hh : p.isAbsolute = false → init.head? ≠ some [])
include hs hh

theorem isAbsolute_withBody : (p.withBody init).isAbsolute = p.isAbsolute := by
  cases ha : p.isAbsolute with
  | false =>
    rw [withBody_of_relative ha]
    exact isAbsolute_ofParts hs (hh ha)
  | true =>
    rw [withBody_of_absolute ha]
    simp [isAbsolute]

theorem bodyParts_withBody (hn : init ≠ []) : (p.withBody init).bodyParts = init := by
  have habs := isAbsolute_withBody hs hh
  cases ha : p.isAbsolute with
  | false =>
    rw [bodyParts_of_relative (habs.trans ha), withBody_of_relative ha]
    exact parts_ofParts hs hn
  | true =>
    have hparts := parts_of_absolute (habs.trans ha)
    rw [withBody_of_absolute ha] at hparts ⊢
    rw [parts, Text.split, if_pos rfl, Text.split_join hs hn] at hparts
    exact (List.cons.inj hparts).2.symm

/-- A path of the same kind without idle parts at its end means the same. -/
theorem components_withBody_dropIdleEnd :
    (p.withBody (dropIdleEnd (!p.isAbsolute) init)).components =
      bodyComponents p.isAbsolute init := by
  obtain ⟨idle, hi, hidle⟩ := dropIdleEnd_append (!p.isAbsolute) init
  have hs' : ∀ x ∈ dropIdleEnd (!p.isAbsolute) init, slash ∉ x :=
    fun x hx => hs x (hi ▸ List.mem_append_left idle hx)
  have hh' : p.isAbsolute = false → (dropIdleEnd (!p.isAbsolute) init).head? ≠ some [] :=
    fun ha => head?_dropIdleEnd (hh ha) _
  by_cases hk : dropIdleEnd (!p.isAbsolute) init = []
  · rw [hk, List.nil_append] at hi
    rw [hk]
    cases ha : p.isAbsolute with
    | false =>
      rw [ha] at hk
      rw [dropIdleEnd_eq_nil (hh ha) hk, withBody_of_relative ha]
      exact components_nil
    | true =>
      rw [withBody_of_absolute ha, hi, bodyComponents, if_pos rfl, filterMap_component?_idle hidle]
      exact components_slash
  · rw [components_eq, isAbsolute_withBody hs' hh', bodyParts_withBody hs' hh' hk]
    nth_rewrite 2 [hi]
    exact (bodyComponents_idle (fun _ => hk) hidle).symm

end Body

/-- The parent of a file name keeps the parts in front, but for idle ones at their end. -/
theorem parent?_of_bodyParts (hp : p.bodyParts = init ++ [n]) (hn : ¬ Idle n) :
    p.parent? = some (p.withBody (dropIdleEnd (!p.isAbsolute) init)) := by
  rw [parent?, hp, dropIdleEnd_concat hn]
  split
  · next h => simp at h
  · rw [List.dropLast_concat]

section Names
variable (hn : ∀ n ∈ names, ¬ Idle n)
include hn

theorem dropParts_names (first : Bool) : dropParts first 0 names = names := by
  cases names with
  | nil => rfl
  | cons n names =>
    have hc : counts false n = true :=
      Bool.of_not_eq_false (mt counts_false_iff.mp (hn n List.mem_cons_self))
    simp [dropParts, hc]

theorem dropParts_false (init : List (Text α)) :
    dropParts false (init.filterMap component?).length (init ++ names) = names := by
  induction init with
  | nil => exact dropParts_names hn false
  | cons x init ih =>
    by_cases hx : Idle x
    · have hc := counts_false_iff.mpr hx
      rw [List.filterMap_cons_none (component?_eq_none_iff.mpr hx), List.cons_append]
      cases hk : (init.filterMap component?).length with
      | zero =>
        rw [hk] at ih
        simpa [dropParts, hc] using ih
      | succ k =>
        rw [hk] at ih
        simpa [dropParts, hc] using ih
    · have hc : counts false x = true := Bool.of_not_eq_false (mt counts_false_iff.mp hx)
      obtain ⟨c, hsome⟩ := Option.ne_none_iff_exists'.mp (mt component?_eq_none_iff.mp hx)
      rw [List.filterMap_cons_some hsome, List.cons_append, List.length_cons, dropParts, if_pos hc]
      exact ih

theorem dropParts_true (hh : init.head? ≠ some []) :
    dropParts true (relativeComponents init).length (init ++ names) = names := by
  cases init with
  | nil => exact dropParts_names hn true
  | cons x init =>
    have hx : x ≠ [] := fun e => hh (by simp [e])
    have hc : counts true x = true := by simpa [counts] using hx
    have hl : (relativeComponents (x :: init)).length = (init.filterMap component?).length + 1 := by
      by_cases hd : x = [dot]
      · simp [relativeComponents, hd]
      · obtain ⟨c, hsome⟩ := Option.ne_none_iff_exists'.mp
          (mt component?_eq_none_iff.mp fun h => h.elim hx hd)
        simp [relativeComponents, hd, List.filterMap_cons_some hsome]
    rw [hl, List.cons_append, dropParts, if_pos hc]
    exact dropParts_false hn init

/-- Names behind the parts of a base are what is left of the path below it. -/
theorem below?_of_bodyParts (hp : p.bodyParts = init ++ names) (hne : names ≠ [])
    (hh : p.isAbsolute = false → init.head? ≠ some [])
    (hb : base.components = bodyComponents p.isAbsolute init) :
    p.below? base = some (ofParts names) := by
  have hidle : ∀ first, dropIdleEnd first names = names := by
    intro first
    have hlast := hn _ (List.getLast_mem hne)
    rw [← List.dropLast_concat_getLast hne]
    exact dropIdleEnd_concat hlast first names.dropLast
  rw [below?, hb, components_eq p, hp]
  dsimp only
  cases ha : p.isAbsolute with
  | true =>
    rw [bodyComponents, bodyComponents, if_pos rfl, if_pos rfl, List.filterMap_append]
    simp [dropParts_false hn, hidle, ofParts, List.isPrefixOf_iff_prefix]
  | false =>
    change (if (relativeComponents init).isPrefixOf (relativeComponents (init ++ names)) then
      if (relativeComponents init).isEmpty then some p.trimmed else _ else _) = _
    by_cases hi : init = []
    · subst hi
      simp [relativeComponents, trimmed, ha, hp, hidle, withBody, ofParts]
    · have hc : relativeComponents init ≠ [] := mt (relativeComponents_eq_nil (hh ha)) hi
      have hprefix :
          (relativeComponents init).isPrefixOf (relativeComponents (init ++ names)) = true := by
        rw [relativeComponents_append hi]
        simp [List.isPrefixOf_iff_prefix]
      rw [if_pos hprefix, if_neg (by simpa using hc)]
      simp [dropParts_true hn (hh ha), hidle, ofParts, bodyComponents]

end Names
end SourceMarks.Path
