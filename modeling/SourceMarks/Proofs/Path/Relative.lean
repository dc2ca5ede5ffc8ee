import SourceMarks.Proofs.Path.Normal

/-!
Paths relative to a base. Main statement: the path given leads from the base to the target whenever
some path does; otherwise it is the target itself, unless that is all `..`.
-/
namespace SourceMarks.Path
variable {base target p : Path} {c : Component} {steps : List Component} {names others : List Text}
  {k j : Nat}

/-- How many `..` the normal form of a path begins with. -/
def climbs (p : Path) : Nat := (p.normalize.components.takeWhile (· = .up)).length

/-- There is a way from a base to a target: the target is absolute, or both are relative and the
base does not begin with more `..`. -/
def HasWay (base target : Path) : Prop :=
  target.isAbsolute = true ∨ base.isAbsolute = false ∧ base.climbs ≤ target.climbs

/-- The path from a base to a target, or the target if there is none. -/
def relative (base target : Path) : Path :=
  (from? base.normalize target.normalize).getD target.normalize

theorem HasRoute.climbs_eq (h : p.HasRoute k names) : p.climbs = k := by
  have hnames : (names.map Component.name).takeWhile (· = .up) = [] := by cases names <;> simp
  rw [climbs, h.components]
  cases ha : p.isAbsolute with
  | true => rw [h.root ha]; rfl
  | false =>
    rw [ground, if_neg (by simp), List.nil_append, route,
      List.takeWhile_append_of_pos (by simp), hnames, List.append_nil, List.length_replicate]

section Steps

theorem steps?_append_left (front base target : List Component) :
    steps? (front ++ base) (front ++ target) = steps? base target := by
  induction front with
  | nil => rfl
  | cons c front ih => rw [List.cons_append, List.cons_append, steps?, if_pos rfl, ih]

theorem steps?_nil_right (base : List Component) :
    steps? base [] = some (base.map fun _ => .up) := by
  cases base <;> rfl

theorem mem_steps? {base target : List Component} (h : steps? base target = some steps)
    (hc : c ∈ steps) :
    c = .up ∨ c ∈ target := by
  induction base generalizing target with
  | nil =>
    rw [steps?] at h
    exact Or.inr (Option.some.inj h ▸ hc)
  | cons b base ih =>
    cases target with
    | nil =>
      rw [steps?_nil_right] at h
      obtain ⟨-, -, he⟩ := List.mem_map.mp (Option.some.inj h ▸ hc)
      exact Or.inl he.symm
    | cons t target =>
      rw [steps?] at h
      split at h
      · exact (ih h).imp_right (List.mem_cons_of_mem t)
      · split at h
        · cases h
        · rw [← Option.some.inj h, List.cons_append] at hc
          cases List.mem_cons.mp hc with
          | inl he => exact Or.inl he
          | inr hc =>
            cases List.mem_append.mp hc with
            | inl hc =>
              obtain ⟨-, -, he⟩ := List.mem_map.mp hc
              exact Or.inl he.symm
            | inr hc => exact Or.inr hc

theorem foldl_replicate_up (names : List Text) (done : List Component) :
    (List.replicate names.length Component.up).foldl pushNormal (names.map .name ++ done) =
      done := by
  induction names with
  | nil => rfl
  | cons n names ih => exact ih

/-- A step up for each name takes the names away. -/
theorem foldl_back (names : List Text) (done : List Component) :
    ((names.map Component.name).map fun _ => Component.up).foldl pushNormal
      ((names.map .name).reverse ++ done) = done := by
  have hb := foldl_replicate_up names.reverse done
  rwa [List.length_reverse, List.map_reverse, ← List.length_map Component.name,
    ← List.map_const'] at hb

/-- From names to any target there are steps, which fold what the names were folded on as the target
does. -/
theorem exists_steps? (names : List Text) (target : List Component) :
    ∃ steps, steps? (names.map .name) target = some steps ∧
      ∀ done, steps.foldl pushNormal ((names.map .name).reverse ++ done) =
        target.foldl pushNormal done := by
  induction names generalizing target with
  | nil => exact ⟨target, rfl, fun done => rfl⟩
  | cons n names ih =>
    cases target with
    | nil => exact ⟨_, steps?_nil_right _, foldl_back (n :: names)⟩
    | cons c target =>
      by_cases hc : .name n = c
      · obtain ⟨steps, hs, hfold⟩ := ih target
        refine ⟨steps, by rw [List.map_cons, steps?, if_pos hc, hs], fun done => ?_⟩
        rw [List.map_cons, List.reverse_cons, List.append_assoc, hfold, ← hc]
        rfl
      · -- Here the ways part: all names left are stepped up, and all of the target is gone down.
        refine ⟨((n :: names).map Component.name).map (fun _ => .up) ++ c :: target, ?_,
          fun done => ?_⟩
        · rw [List.map_cons, steps?, if_neg hc, if_neg (by simp)]
          rfl
        · rw [List.foldl_append, foldl_back]

end Steps

section Ways

theorem relative_of_ne (h : target.isAbsolute ≠ base.isAbsolute) :
    relative base target = target.normalize := by
  rw [relative, from?, isAbsolute_normalize, isAbsolute_normalize, if_pos (by simpa using h)]
  split <;> rfl

theorem relative_of_eq (hb : base.HasRoute k names) (ht : target.HasRoute j others)
    (h : target.isAbsolute = base.isAbsolute) : relative base target =
    ((steps? (route k names) (route j others)).map ofComponents).getD target.normalize := by
  rw [relative, from?, isAbsolute_normalize, isAbsolute_normalize, if_neg (by simp [h]),
    hb.components, ht.components, h, steps?_append_left]

/-- The path given is written from steps, behind a root or without one. -/
theorem exists_relative (base target : Path) : ∃ absolute steps,
    relative base target = ofComponents (ground absolute ++ steps) ∧ ∀ c ∈ steps, IsStep c := by
  obtain ⟨k, names, hb⟩ := exists_hasRoute base
  obtain ⟨j, others, ht⟩ := exists_hasRoute target
  have hsteps := isStep_of_mem_route (k := j) ht.isStep
  by_cases h : target.isAbsolute = base.isAbsolute
  · cases hs : steps? (route k names) (route j others) with
    | none => exact ⟨_, _, by rw [relative_of_eq hb ht h, hs]; exact ht.normalize, hsteps⟩
    | some steps =>
      refine ⟨false, steps, by rw [relative_of_eq hb ht h, hs]; rfl, fun c hc => ?_⟩
      cases mem_steps? hs hc with
      | inl he => exact he ▸ isStep_up
      | inr hc => exact hsteps c hc
  · exact ⟨_, _, (relative_of_ne h).trans ht.normalize, hsteps⟩

theorem relativize_eq (base target : Path) (posix : Bool) :
    relativize base target posix = (relative base target).text := by
  obtain ⟨absolute, steps, hr, hs⟩ := exists_relative base target
  cases posix with
  | true => exact (hr ▸ toPosix_ofComponents hs : (relative base target).toPosix = _)
  | false => rfl

/-- A base that climbs no further than the target leads to it by steps. -/
theorem exists_way (hb : base.HasRoute k names) (ht : target.HasRoute j others)
    (h : target.isAbsolute = base.isAbsolute) (hle : k ≤ j) :
    ∃ steps, relative base target = ofComponents (ground false ++ steps) ∧ (∀ c ∈ steps, IsStep c) ∧
      steps.foldl pushNormal base.folded = target.folded := by
  obtain ⟨d, rfl⟩ := Nat.exists_eq_add_of_le hle
  have hroute : route (k + d) others = .replicate k .up ++ route d others := by
    rw [route, route, ← List.append_assoc, List.replicate_append_replicate]
  obtain ⟨steps, hs, hfold⟩ := exists_steps? names (route d others)
  have hsteps : steps? (route k names) (route (k + d) others) = some steps := by
    rw [hroute, route, steps?_append_left, hs]
  refine ⟨steps, by rw [relative_of_eq hb ht h, hsteps]; rfl, fun c hc => ?_, ?_⟩
  · cases mem_steps? hsteps hc with
    | inl he => exact he ▸ isStep_up
    | inr hc => exact isStep_of_mem_route ht.isStep c hc
  · have hd : base.isAbsolute = true → d = 0 := by
      intro ha
      have hr := ht.root (h.trans ha)
      omega
    rw [hb.folded, hfold, foldl_route hd, ht.folded, h, Nat.add_comm d k]

/-- Where there is a way, the path given leads from the base to the target. -/
theorem normalize_join_relative (h : HasWay base target) :
    (base.join (relative base target)).normalize = target.normalize := by
  obtain ⟨k, names, hb⟩ := exists_hasRoute base
  obtain ⟨j, others, ht⟩ := exists_hasRoute target
  by_cases hk : target.isAbsolute = base.isAbsolute
  · have hle : k ≤ j := by
      cases h with
      | inl ha =>
        have hr := hb.root (hk ▸ ha)
        omega
      | inr hc => exact hb.climbs_eq ▸ ht.climbs_eq ▸ hc.2
    obtain ⟨steps, hr, hs, hfold⟩ := exists_way hb ht hk hle
    rw [normalize_eq_iff, hr, folded_join (isAbsolute_ofComponents hs),
      trail_ofComponents hs, hfold]
  · have ha : target.isAbsolute = true := by
      cases h with
      | inl ha => exact ha
      | inr hc =>
        rw [hc.1] at hk
        simpa using hk
    rw [relative_of_ne hk, join_of_absolute ((isAbsolute_normalize target).trans ha),
      normalize_normalize]

end Ways

section Strays

/-- What is given where a base climbs further than the target: the target itself if it leads down
along names. -/
theorem relative_of_lt (hb : base.HasRoute k names) (ht : target.HasRoute j others)
    (h : target.isAbsolute = base.isAbsolute) (hlt : j < k) : relative base target =
      if others = [] then ofComponents (.replicate (k - j + names.length) .up)
        else target.normalize := by
  obtain ⟨d, rfl⟩ := Nat.exists_eq_add_of_lt hlt
  have hroute : route (j + d + 1) names = .replicate j .up ++ (.up :: route d names) := by
    rw [route, route, Nat.add_assoc, ← List.replicate_append_replicate, List.append_assoc,
      List.replicate_succ, List.cons_append]
  have hother : route j others = .replicate j .up ++ others.map .name := rfl
  rw [relative_of_eq hb ht h, hroute, hother, steps?_append_left]
  cases others with
  | cons n others =>
    rw [List.map_cons, steps?, if_neg (by simp), if_pos rfl]
    rfl
  | nil =>
    have hlength : (Component.up :: route d names).length = j + d + 1 - j + names.length := by
      simp [route]
      omega
    rw [List.map_nil, steps?_nil_right, List.map_const', hlength]
    rfl

theorem not_hasWay_cases (h : ¬ HasWay base target) : target.isAbsolute = false ∧
    (base.isAbsolute = true ∨ base.isAbsolute = false ∧ target.climbs < base.climbs) := by
  have ha : target.isAbsolute = false := Bool.eq_false_iff.mpr fun ha => h (Or.inl ha)
  refine ⟨ha, ?_⟩
  cases hb : base.isAbsolute with
  | true => exact Or.inl rfl
  | false => exact Or.inr ⟨rfl, Nat.not_le.mp fun hle => h (Or.inr ⟨hb, hle⟩)⟩

/-- Where there is no way, a target that leads down along names is left as it is. -/
theorem relative_of_not_hasWay (h : ¬ HasWay base target)
    (hn : ∃ c ∈ target.normalize.components, c ≠ .up) :
    relative base target = target.normalize := by
  obtain ⟨k, names, hb⟩ := exists_hasRoute base
  obtain ⟨j, others, ht⟩ := exists_hasRoute target
  obtain ⟨hta, hba | ⟨hba, hlt⟩⟩ := not_hasWay_cases h
  · exact relative_of_ne (by simp [hta, hba])
  · rw [hb.climbs_eq, ht.climbs_eq] at hlt
    rw [relative_of_lt hb ht (hta.trans hba.symm) hlt, if_neg]
    intro ho
    obtain ⟨c, hc, hne⟩ := hn
    rw [ht.components, hta, ho, route, List.map_nil, List.append_nil] at hc
    exact hne (List.eq_of_mem_replicate hc)

end Strays

/-- What a base and a target give leads from the base to the target if there is a way. Otherwise it
is the target itself, if that has a component that is not `..`. Separators are the same either
way. -/
theorem relativize_exact (base target : Path) (posix : Bool) :
    (HasWay base target → (base.join ⟨relativize base target posix⟩).normalize = target.normalize) ∧
    (¬ HasWay base target → (∃ c ∈ target.normalize.components, c ≠ .up) →
      relativize base target posix = target.normalize.text) ∧
    relativize base target true = relativize base target false := by
  rw [relativize_eq, relativize_eq, relativize_eq]
  exact ⟨normalize_join_relative, fun h hn => congrArg text (relative_of_not_hasWay h hn), rfl⟩

end SourceMarks.Path
