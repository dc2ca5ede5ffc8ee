import SourceMarks.Proofs.Path.Normal

/-!
Normal forms and joined paths. Main statement: a normal form has its root or its `..` in front of
all names, and paths with the same normal forms can take each other's place in a joined path.
-/
namespace SourceMarks.Path
variable {p q : Path} {c : Component} {steps : List Component}

/-- Steps folded by themselves are names on top of some `..`. -/
theorem foldl_steps_cases (hs : ∀ c ∈ steps, IsStep c) :
    (∃ n rest, steps.foldl pushNormal [] = .name n :: rest) ∨
      pushNormal (steps.foldl pushNormal []) .up = .up :: steps.foldl pushNormal [] := by
  obtain ⟨names, k, h, -, -⟩ := (settled_ground false).foldl hs
  change steps.foldl pushNormal [] = _ at h
  rw [h]
  cases names with
  | cons n names => exact Or.inl ⟨n, _, rfl⟩
  | nil =>
    refine Or.inr ?_
    cases k <;> rfl

/-- Where steps lead does not change when they are folded first. -/
theorem foldl_pushNormal_folded (hs : ∀ c ∈ steps, IsStep c) (done : List Component) :
    (steps.foldl pushNormal []).reverse.foldl pushNormal done = steps.foldl pushNormal done := by
  induction steps using List.reverseRecOn with
  | nil => rfl
  | append_singleton steps c ih =>
    have hsteps : ∀ c ∈ steps, IsStep c := fun c hc => hs c (List.mem_append_left _ hc)
    have hc : IsStep c := hs c (by simp)
    have hpush : ∀ folded : List Component, folded = c :: steps.foldl pushNormal [] →
        folded.reverse.foldl pushNormal done = pushNormal (steps.foldl pushNormal done) c := by
      intro folded hf
      rw [hf, List.reverse_cons, List.foldl_append, ih hsteps]
      rfl
    rw [List.foldl_append, List.foldl_append]
    obtain rfl | ⟨n, rfl⟩ := hc.cases
    · obtain ⟨n, rest, hn⟩ | hup := foldl_steps_cases hsteps
      · -- The `..` takes the last name away, which the folded steps then do not push.
        have hrest := ih hsteps
        rw [hn, List.reverse_cons, List.foldl_append] at hrest
        rw [hn, ← hrest]
        rfl
      · exact hpush _ hup
    · exact hpush _ rfl

theorem trail_normalize (h : q.isAbsolute = false) : q.normalize.trail = q.folded.reverse := by
  obtain ⟨k, names, hr⟩ := exists_hasRoute q
  rw [hr.trail, hr.folded, h, route]
  simp [ground]

theorem normalize_join (p q : Path) :
    (p.join q).normalize = (p.normalize.join q.normalize).normalize := by
  cases ha : q.isAbsolute with
  | true =>
    have hn : q.normalize.isAbsolute = true := (isAbsolute_normalize q).trans ha
    rw [join_of_absolute ha, join_of_absolute hn, normalize_normalize]
  | false =>
    have hn : q.normalize.isAbsolute = false := (isAbsolute_normalize q).trans ha
    rw [normalize_eq_iff, folded_join ha, folded_join hn, folded_normalize, trail_normalize ha]
    have hq : q.folded = q.trail.foldl pushNormal [] := by
      rw [folded, ha]
      rfl
    rw [hq]
    exact (foldl_pushNormal_folded (fun c hc => isStep_of_mem_trail hc) p.folded).symm

/-- A normal form has its root, or else its `..`, in front, and only names behind; it is absolute
exactly if the path is, and is its own normal form. Normal forms can take the place of both parts of
a joined path. -/
theorem normalize_exact (p q : Path) :
    (∃ (climbs : Nat) (names : List Text), p.normalize.components =
      (if p.isAbsolute then [.root] else List.replicate climbs .up) ++ names.map .name) ∧
    Component.here ∉ p.normalize.components ∧ p.normalize.isAbsolute = p.isAbsolute ∧
    p.normalize.normalize = p.normalize ∧
    (p.join q).normalize = (p.normalize.join q.normalize).normalize := by
  obtain ⟨k, names, h⟩ := exists_hasRoute p
  have hform : p.normalize.components =
      (if p.isAbsolute then [.root] else List.replicate k .up) ++ names.map .name := by
    rw [h.components, route, ground]
    split
    · next ha => rw [h.root ha, List.replicate_zero, List.nil_append]
    · rfl
  have hhere : Component.here ∉ p.normalize.components := by
    rw [hform]
    split <;> simp
  exact ⟨⟨k, names, hform⟩, hhere, isAbsolute_normalize p, normalize_normalize p,
    normalize_join p q⟩

end SourceMarks.Path
