import SourceMarks.Path.Relative
import SourceMarks.Proofs.Path.Below

/-!
Normal forms of paths. What a path means is its trail of steps, and folding the trail leaves names
on top of a root or of some `..`; a joined path goes on folding where the first one ended.
-/
namespace SourceMarks.Path
variable {p q : Path} {c : Component} {steps done : List Component} {absolute : Bool} {k : Nat}

/-- A component that leads from one place to another: `..` or a name. -/
def IsStep (c : Component) : Prop := component? c.toText = some c ∧ '/' ∉ c.toText

/-- The steps of a path, behind its root if it has one. -/
def trail (p : Path) : List Component := p.parts.filterMap component?

/-- The root of an absolute path. -/
def ground (absolute : Bool) : List Component := if absolute then [.root] else []

/-- The normal components of a path, in reverse order. -/
def folded (p : Path) : List Component := p.trail.foldl pushNormal (ground p.isAbsolute)

theorem isStep_up : IsStep .up := ⟨rfl, by decide⟩

section Steps

theorem component?_eq_some {part : Text} (h : component? part = some c) : c.toText = part := by
  unfold component? at h
  split at h
  · cases h
  · split at h
    · next hp => exact Option.some.inj h ▸ hp.symm
    · exact Option.some.inj h ▸ rfl

theorem isStep_of_mem_trail (h : c ∈ p.trail) : IsStep c := by
  obtain ⟨part, hp, hc⟩ := List.mem_filterMap.mp h
  obtain rfl := component?_eq_some hc
  exact ⟨hc, slash_not_mem_of_mem_parts hp⟩

theorem IsStep.not_idle (h : IsStep c) : ¬ Idle c.toText := by
  rw [← component?_eq_none_iff, h.1]
  simp

theorem IsStep.ne_nil (h : IsStep c) : c.toText ≠ [] := fun e => h.not_idle (Or.inl e)

theorem IsStep.cases (h : IsStep c) : c = .up ∨ ∃ n, c = .name n := by
  cases c with
  | root => exact absurd h.2 (by decide)
  | here => exact absurd h.1 (by decide)
  | up => exact Or.inl rfl
  | name n => exact Or.inr ⟨n, rfl⟩

theorem parts_of_isStep (h : IsStep c) : parts ⟨c.toText⟩ = [c.toText] := Text.split_of_not_mem h.2

theorem isAbsolute_of_isStep (h : IsStep c) : isAbsolute ⟨c.toText⟩ = false := by
  refine Bool.eq_false_iff.mpr fun ha => h.2 ?_
  have hh : c.toText.head? = some '/' := by simpa [isAbsolute] using ha
  exact List.mem_of_head? hh

theorem filterMap_component?_steps (hs : ∀ c ∈ steps, IsStep c) :
    (steps.map Component.toText).filterMap component? = steps := by
  rw [List.filterMap_map]
  induction steps with
  | nil => rfl
  | cons c steps ih =>
    rw [List.forall_mem_cons] at hs
    rw [List.filterMap_cons_some (by exact hs.1.1), ih hs.2]

end Steps

section Trails

theorem filterMap_component?_stem (parts : List Text) :
    (stem parts).filterMap component? = parts.filterMap component? := by
  obtain ⟨rest, hp, hr⟩ := stem_append parts
  have hidle := filterMap_component?_idle fun x hx => Or.inl (hr x hx)
  rw [congrArg (List.filterMap component?) hp, List.filterMap_append, hidle, List.append_nil]

/-- The trail of a joined path goes on behind the first one. -/
theorem trail_join (hq : q.isAbsolute = false) : (p.join q).trail = p.trail ++ q.trail := by
  rw [trail, parts_join hq, List.filterMap_append, filterMap_component?_stem]
  rfl

theorem folded_join (hq : q.isAbsolute = false) :
    (p.join q).folded = q.trail.foldl pushNormal p.folded := by
  rw [folded, trail_join hq, isAbsolute_join hq, List.foldl_append]
  rfl

theorem components_of_absolute (h : p.isAbsolute = true) : p.components = .root :: p.trail := by
  rw [components, if_pos h]
  rfl

theorem normalComponents_components (p : Path) :
    normalComponents p.components = p.folded.reverse := by
  cases ha : p.isAbsolute with
  | true => rw [components_of_absolute ha, folded, ha]; rfl
  | false =>
    rw [components_of_relative ha, folded, trail, ha, normalComponents]
    cases p.parts with
    | nil => rfl
    | cons x parts =>
      -- A `.` in front is a component but no step.
      by_cases hx : x = ['.']
      · subst hx
        rfl
      · rw [relativeComponents, dot_char, if_neg hx]
        rfl

theorem normalize_eq (p : Path) : p.normalize = ofComponents p.folded.reverse := by
  rw [normalize, normalComponents_components]

end Trails

section Written
variable (hs : ∀ c ∈ steps, IsStep c)
include hs

/-- Joining steps one by one adds their texts as parts. -/
theorem parts_foldl_join (hne : steps ≠ []) (p : Path) :
    (steps.foldl (fun q c => q.join ⟨c.toText⟩) p).parts =
      stem p.parts ++ steps.map Component.toText := by
  induction steps generalizing p with
  | nil => exact absurd rfl hne
  | cons c steps ih =>
    rw [List.forall_mem_cons] at hs
    have hc := parts_join (p := p) (isAbsolute_of_isStep hs.1)
    rw [parts_of_isStep hs.1] at hc
    by_cases hn : steps = []
    · rw [hn]
      exact hc
    · rw [List.foldl_cons, ih hs.2 hn, hc, stem_concat, if_neg hs.1.ne_nil, List.append_assoc]
      rfl

theorem ofComponents_steps : ofComponents steps = ofParts (steps.map Component.toText) := by
  by_cases hn : steps = []
  · rw [hn]
    rfl
  · have hparts := parts_foldl_join hs hn ⟨[]⟩
    have hslash : ∀ x ∈ steps.map Component.toText, '/' ∉ x := by
      intro x hx
      obtain ⟨c, hc, rfl⟩ := List.mem_map.mp hx
      exact (hs c hc).2
    apply eq_of_parts
    rw [parts_ofParts hslash (by simpa using hn)]
    exact hparts

theorem ofComponents_root :
    ofComponents (.root :: steps) = ⟨'/' :: Text.join ['/'] (steps.map Component.toText)⟩ := by
  by_cases hn : steps = []
  · rw [hn]
    rfl
  · have hparts := parts_foldl_join hs hn ⟨['/']⟩
    have hjoin := ofParts_parts (steps.foldl (fun q c => q.join ⟨c.toText⟩) ⟨['/']⟩)
    have hstem : stem (parts ⟨['/']⟩) = [[]] := by decide
    rw [hparts, hstem, ofParts, List.singleton_append, slash_char,
      Text.join_next '/' [] (by simpa using hn)] at hjoin
    exact hjoin.symm

theorem trail_foldl_join (p : Path) :
    (steps.foldl (fun q c => q.join ⟨c.toText⟩) p).trail = p.trail ++ steps := by
  induction steps generalizing p with
  | nil => exact (List.append_nil p.trail).symm
  | cons c steps ih =>
    rw [List.forall_mem_cons] at hs
    have hone : trail ⟨c.toText⟩ = [c] := by
      rw [trail, parts_of_isStep hs.1, List.filterMap_cons_some hs.1.1, List.filterMap_nil]
    rw [List.foldl_cons, ih hs.2, trail_join (isAbsolute_of_isStep hs.1), hone, List.append_assoc]
    rfl

theorem isAbsolute_foldl_join (p : Path) :
    (steps.foldl (fun q c => q.join ⟨c.toText⟩) p).isAbsolute = p.isAbsolute := by
  induction steps generalizing p with
  | nil => rfl
  | cons c steps ih =>
    rw [List.forall_mem_cons] at hs
    rw [List.foldl_cons, ih hs.2, isAbsolute_join (isAbsolute_of_isStep hs.1)]

theorem isAbsolute_ofComponents :
    (ofComponents (ground absolute ++ steps)).isAbsolute = absolute := by
  rw [ofComponents, List.foldl_append, isAbsolute_foldl_join hs]
  cases absolute <;> rfl

theorem trail_ofComponents : (ofComponents (ground absolute ++ steps)).trail = steps := by
  rw [ofComponents, List.foldl_append, trail_foldl_join hs]
  cases absolute <;> rfl

theorem relativeComponents_steps : relativeComponents (steps.map Component.toText) = steps := by
  have hall := filterMap_component?_steps hs
  cases steps with
  | nil => rfl
  | cons c steps =>
    have hc : c.toText ≠ ['.'] := fun e => (hs c List.mem_cons_self).not_idle (Or.inr e)
    rw [List.map_cons, relativeComponents, dot_char, if_neg hc]
    exact hall

/-- The components of a path written from a root and steps, or from steps alone. -/
theorem components_ofComponents :
    (ofComponents (ground absolute ++ steps)).components = ground absolute ++ steps := by
  have ha : (ofComponents (ground absolute ++ steps)).isAbsolute = absolute :=
    isAbsolute_ofComponents hs
  cases absolute with
  | true => rw [components_of_absolute ha, trail_ofComponents hs]; rfl
  | false =>
    rw [components_of_relative ha]
    by_cases hn : steps = []
    · subst hn
      rfl
    · have hparts := parts_foldl_join hs hn ⟨[]⟩
      exact (congrArg relativeComponents hparts).trans (relativeComponents_steps hs)

theorem text_ofComponents :
    (ofComponents (ground absolute ++ steps)).text = posixOf (ground absolute ++ steps) := by
  cases absolute with
  | true => exact congrArg Path.text (ofComponents_root hs)
  | false =>
    refine (congrArg Path.text (ofComponents_steps hs)).trans ?_
    cases steps with
    | nil => rfl
    | cons c steps =>
      obtain rfl | ⟨n, rfl⟩ := (hs c List.mem_cons_self).cases <;> rfl

/-- Such a path has one written form. -/
theorem toPosix_ofComponents :
    (ofComponents (ground absolute ++ steps)).toPosix =
      (ofComponents (ground absolute ++ steps)).text := by
  rw [toPosix, components_ofComponents hs, text_ofComponents hs]

end Written

section Folding
variable {names : List Text}

/-- A folded path: names on top of a root or of some `..`. -/
def Settled (absolute : Bool) (done : List Component) : Prop :=
  ∃ (names : List Text) (k : Nat), done = names.map .name ++ (.replicate k .up ++ ground absolute) ∧
    (∀ n ∈ names, IsStep (.name n)) ∧ (absolute = true → k = 0)

theorem settled_ground (absolute : Bool) : Settled absolute (ground absolute) :=
  ⟨[], 0, rfl, by simp, fun _ => rfl⟩

theorem Settled.push (h : Settled absolute done) (hc : IsStep c) :
    Settled absolute (pushNormal done c) := by
  obtain ⟨names, k, rfl, hn, hk⟩ := h
  obtain rfl | ⟨n, rfl⟩ := hc.cases
  · cases names with
    | cons n names => exact ⟨names, k, rfl, fun m hm => hn m (List.mem_cons_of_mem n hm), hk⟩
    | nil =>
      cases absolute with
      | true => exact ⟨[], 0, by rw [hk rfl]; rfl, hn, fun _ => rfl⟩
      | false =>
        refine ⟨[], k + 1, ?_, hn, fun h => by cases h⟩
        cases k <;> rfl
  · exact ⟨n :: names, k, rfl, List.forall_mem_cons.mpr ⟨hc, hn⟩, hk⟩

theorem Settled.foldl (h : Settled absolute done) (hs : ∀ c ∈ steps, IsStep c) :
    Settled absolute (steps.foldl pushNormal done) := by
  induction steps generalizing done with
  | nil => exact h
  | cons c steps ih =>
    rw [List.forall_mem_cons] at hs
    exact ih (h.push hs.1) hs.2

theorem settled_folded (p : Path) : Settled p.isAbsolute p.folded :=
  (settled_ground p.isAbsolute).foldl fun _ hc => isStep_of_mem_trail hc

/-- Steps up, as often as told, and then down along names. -/
def route (climbs : Nat) (names : List Text) : List Component :=
  .replicate climbs .up ++ names.map .name

theorem isStep_of_mem_route (hn : ∀ n ∈ names, IsStep (.name n)) :
    ∀ c ∈ route k names, IsStep c := by
  intro c hc
  cases List.mem_append.mp hc with
  | inl hc => exact List.eq_of_mem_replicate hc ▸ isStep_up
  | inr hc =>
    obtain ⟨n, hm, rfl⟩ := List.mem_map.mp hc
    exact hn n hm

/-- Where a path leads: up as often as it climbs, and down along names. No path climbs above the
root. -/
structure HasRoute (p : Path) (climbs : Nat) (names : List Text) : Prop where
  folded : p.folded = (names.map .name).reverse ++ (.replicate climbs .up ++ ground p.isAbsolute)
  isStep : ∀ n ∈ names, IsStep (.name n)
  root : p.isAbsolute = true → climbs = 0

theorem exists_hasRoute (p : Path) : ∃ k names, p.HasRoute k names := by
  obtain ⟨names, k, hp, hn, hk⟩ := settled_folded p
  exact ⟨k, names.reverse, by simpa using hp, by simpa using hn, hk⟩

theorem reverse_ground (absolute : Bool) : (ground absolute).reverse = ground absolute := by
  cases absolute <;> rfl

namespace HasRoute
variable (h : p.HasRoute k names)
include h

theorem normalize : p.normalize = ofComponents (ground p.isAbsolute ++ route k names) := by
  rw [normalize_eq, h.folded, List.reverse_append, List.reverse_reverse, List.reverse_append,
    List.reverse_replicate, reverse_ground, List.append_assoc]
  rfl

theorem components : p.normalize.components = ground p.isAbsolute ++ route k names := by
  rw [h.normalize, components_ofComponents (isStep_of_mem_route h.isStep)]

theorem trail : p.normalize.trail = route k names := by
  rw [h.normalize, trail_ofComponents (isStep_of_mem_route h.isStep)]

end HasRoute

theorem isAbsolute_normalize (p : Path) : p.normalize.isAbsolute = p.isAbsolute := by
  obtain ⟨k, names, h⟩ := exists_hasRoute p
  rw [h.normalize, isAbsolute_ofComponents (isStep_of_mem_route h.isStep)]

theorem foldl_names (names : List Text) (done : List Component) :
    (names.map .name).foldl pushNormal done = (names.map .name).reverse ++ done := by
  induction names generalizing done with
  | nil => rfl
  | cons n names ih =>
    rw [List.map_cons, List.foldl_cons, ih, List.reverse_cons, List.append_assoc]
    rfl

theorem foldl_ups (k j : Nat) :
    (List.replicate k Component.up).foldl pushNormal (.replicate j .up) =
      .replicate (k + j) .up := by
  induction k generalizing j with
  | zero => rw [Nat.zero_add]; rfl
  | succ k ih =>
    have hpush : pushNormal (.replicate j .up) .up = .replicate (j + 1) .up := by cases j <;> rfl
    rw [List.replicate_succ, List.foldl_cons, hpush, ih]
    rw [Nat.add_assoc, Nat.add_comm 1 j]

/-- Behind a root, or behind `..`, a route is folded into itself. -/
theorem foldl_route {climbs : Nat} (hc : absolute = true → climbs = 0) (names : List Text)
    (k : Nat) :
    (route climbs names).foldl pushNormal (.replicate k .up ++ ground absolute) =
      (names.map .name).reverse ++ (.replicate (climbs + k) .up ++ ground absolute) := by
  rw [route, List.foldl_append, foldl_names]
  cases absolute with
  | true => rw [hc rfl, Nat.zero_add]; rfl
  | false =>
    rw [ground, if_neg (by simp), List.append_nil, List.append_nil, foldl_ups]

theorem folded_normalize (p : Path) : p.normalize.folded = p.folded := by
  obtain ⟨k, names, h⟩ := exists_hasRoute p
  have hroute := foldl_route h.root names 0
  rw [folded, isAbsolute_normalize, h.trail, h.folded]
  exact hroute

theorem normalize_normalize (p : Path) : p.normalize.normalize = p.normalize := by
  rw [normalize_eq, folded_normalize, ← normalize_eq]

theorem normalize_eq_iff : p.normalize = q.normalize ↔ p.folded = q.folded := by
  constructor
  · intro h
    rw [← folded_normalize p, h, folded_normalize]
  · intro h
    rw [normalize_eq, h, ← normalize_eq]

end Folding
end SourceMarks.Path
