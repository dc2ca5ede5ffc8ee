import Mathlib.Data.List.Induction
import Mathlib.Data.List.Perm.Subperm
import Mathlib.Data.Nat.Find
import Mathlib.Tactic.Tauto
import SourceMarks.Proofs.Matcher.Expand

/-!
The paths collected by a list of patterns. Main statement: they are those that some pattern adds and
no later one removes, in the order of the patterns that added them last, and in byte order for each.
-/
namespace SourceMarks.Matcher
variable {expand : Text → Except Fault (List Text)} {patterns : List Text} {p q f g : Text}
  {files found : List Text} {e : Glob.Expression} {i j k : Nat}

/-- The pattern at a place finds a path. -/
def Adds (expand : Text → Except Fault (List Text)) (patterns : List Text) (f : Text) (i : Nat) :
    Prop :=
  ∃ p found, patterns[i]? = some p ∧ p.head? ≠ some '!' ∧ expand p = .ok found ∧ f ∈ found

/-- The pattern at a place removes a path. -/
def Removes (patterns : List Text) (f : Text) (j : Nat) : Prop :=
  ∃ q e, patterns[j]? = some ('!' :: q) ∧ compile q = .ok e ∧ e.matches f = true

/-- The first place behind all that remove a path where it is added. -/
structure IsRank (expand : Text → Except Fault (List Text)) (patterns : List Text) (f : Text)
    (i : Nat) : Prop where
  adds : Adds expand patterns f i
  kept : ∀ j, Removes patterns f j → j < i
  least : ∀ k, Adds expand patterns f k → (∀ j, Removes patterns f j → j < k) → i ≤ k

/-- One path has a smaller rank than another one, or the same rank and smaller bytes. -/
def Outranks (expand : Text → Except Fault (List Text)) (patterns : List Text) (f g : Text) :
    Prop :=
  ∃ i k, IsRank expand patterns f i ∧ IsRank expand patterns g k ∧
    (i < k ∨ i = k ∧ Text.Precedes f g)

/-- The paths that are added and not removed later, in order. -/
structure Collected (expand : Text → Except Fault (List Text)) (patterns files : List Text) :
    Prop where
  mem : ∀ f, f ∈ files ↔ ∃ i, Adds expand patterns f i ∧ ∀ j, i < j → ¬ Removes patterns f j
  ordered : files.Pairwise (Outranks expand patterns)

theorem IsRank.unique (hi : IsRank expand patterns f i) (hk : IsRank expand patterns f k) :
    i = k := by
  have hik := hi.least k hk.adds hk.kept
  have hki := hk.least i hi.adds hi.kept
  omega

theorem Outranks.ne (h : Outranks expand patterns f g) : f ≠ g := by
  rintro rfl
  obtain ⟨i, k, hi, hk, hlt | ⟨-, hp⟩⟩ := h
  · have he := hi.unique hk
    omega
  · exact hp.2 rfl

theorem Collected.nodup (h : Collected expand patterns files) : files.Nodup :=
  h.ordered.imp Outranks.ne

theorem getElem?_concat_iff : (patterns ++ [p])[i]? = some q ↔
    patterns[i]? = some q ∨ i = patterns.length ∧ q = p := by
  obtain hlt | rfl | hgt := Nat.lt_trichotomy i patterns.length
  · simp [List.getElem?_append_left hlt, Nat.ne_of_lt hlt]
  · simp [eq_comm]
  · have hl : (patterns ++ [p]).length ≤ i := by
      rw [List.length_append]
      exact hgt
    rw [List.getElem?_eq_none hl, List.getElem?_eq_none (Nat.le_of_lt hgt)]
    simp [Nat.ne_of_gt hgt]

theorem lt_of_adds (h : Adds expand patterns f i) : i < patterns.length := by
  obtain ⟨p, found, hp, -⟩ := h
  exact (List.getElem?_eq_some_iff.mp hp).1

theorem lt_of_removes (h : Removes patterns f j) : j < patterns.length := by
  obtain ⟨q, e, hq, -⟩ := h
  exact (List.getElem?_eq_some_iff.mp hq).1

/-- A place adds or removes, but not both, so the last word on a path is one or the other. -/
theorem exists_isRank (h : ∃ i, Adds expand patterns f i ∧ ∀ j, i < j → ¬ Removes patterns f j) :
    ∃ i, IsRank expand patterns f i := by
  classical
  obtain ⟨i, ha, hl⟩ := h
  have hex : ∃ k, Adds expand patterns f k ∧ ∀ j, Removes patterns f j → j < k := by
    refine ⟨i, ha, fun j hj => ?_⟩
    obtain ⟨p, found, hp, hhead, -⟩ := ha
    have hne : j ≠ i := by
      rintro rfl
      obtain ⟨q, e, hq, -⟩ := hj
      rw [hp] at hq
      cases hq
      exact hhead rfl
    have hle : ¬ i < j := fun hlt => hl j hlt hj
    omega
  obtain ⟨hadds, hkept⟩ := Nat.find_spec hex
  exact ⟨Nat.find hex, hadds, hkept, fun k hk hall => Nat.find_min' hex ⟨hk, hall⟩⟩

section Positive
variable (hp : p.head? ≠ some '!')
include hp

theorem removes_positive : Removes (patterns ++ [p]) f j ↔ Removes patterns f j := by
  have hne : ∀ q, '!' :: q ≠ p := by
    rintro q rfl
    exact hp rfl
  simp only [Removes, getElem?_concat_iff, hne, and_false, or_false]

theorem adds_positive (he : expand p = .ok found) :
    Adds expand (patterns ++ [p]) f i ↔
      Adds expand patterns f i ∨ i = patterns.length ∧ f ∈ found := by
  constructor
  · rintro ⟨r, others, hr, hhead, ho, hf⟩
    cases getElem?_concat_iff.mp hr with
    | inl hr => exact Or.inl ⟨r, others, hr, hhead, ho, hf⟩
    | inr hr =>
      obtain ⟨rfl, rfl⟩ := hr
      rw [he] at ho
      cases ho
      exact Or.inr ⟨rfl, hf⟩
  · rintro (⟨r, others, hr, hhead, ho, hf⟩ | ⟨rfl, hf⟩)
    · exact ⟨r, others, getElem?_concat_iff.mpr (Or.inl hr), hhead, ho, hf⟩
    · exact ⟨p, found, getElem?_concat_iff.mpr (Or.inr ⟨rfl, rfl⟩), hp, he, hf⟩

/-- A path keeps its rank when a pattern comes that adds others, or itself once more. -/
theorem IsRank.positive (he : expand p = .ok found) (h : IsRank expand patterns f i) :
    IsRank expand (patterns ++ [p]) f i := by
  refine ⟨(adds_positive hp he).mpr (Or.inl h.adds), fun j hj => ?_, fun k hk hall => ?_⟩
  · exact h.kept j ((removes_positive hp).mp hj)
  · cases (adds_positive hp he).mp hk with
    | inl hk => exact h.least k hk fun j hj => hall j ((removes_positive hp).mpr hj)
    | inr hk =>
      have hi := lt_of_adds h.adds
      omega

/-- A path that is new has the pattern's place as its rank. -/
theorem isRank_new (he : expand p = .ok found) (hf : f ∈ found)
    (hn : ¬ ∃ i, Adds expand patterns f i ∧ ∀ j, i < j → ¬ Removes patterns f j) :
    IsRank expand (patterns ++ [p]) f patterns.length := by
  refine ⟨(adds_positive hp he).mpr (Or.inr ⟨rfl, hf⟩), fun j hj => ?_, fun k hk hall => ?_⟩
  · exact lt_of_removes ((removes_positive hp).mp hj)
  · cases (adds_positive hp he).mp hk with
    | inl hk =>
      refine absurd ⟨k, hk, fun j hlt hj => ?_⟩ hn
      have hjk := hall j ((removes_positive hp).mpr hj)
      omega
    | inr hk => exact Nat.le_of_eq hk.1.symm

end Positive

section Negated

theorem adds_negated : Adds expand (patterns ++ ['!' :: q]) f i ↔ Adds expand patterns f i := by
  constructor
  · rintro ⟨r, others, hr, hhead, ho, hf⟩
    cases getElem?_concat_iff.mp hr with
    | inl hr => exact ⟨r, others, hr, hhead, ho, hf⟩
    | inr hr =>
      obtain ⟨-, rfl⟩ := hr
      exact absurd rfl hhead
  · rintro ⟨r, others, hr, hhead, ho, hf⟩
    exact ⟨r, others, getElem?_concat_iff.mpr (Or.inl hr), hhead, ho, hf⟩

theorem removes_negated (he : compile q = .ok e) : Removes (patterns ++ ['!' :: q]) f j ↔
    Removes patterns f j ∨ j = patterns.length ∧ e.matches f = true := by
  constructor
  · rintro ⟨r, e', hr, he', hf⟩
    cases getElem?_concat_iff.mp hr with
    | inl hr => exact Or.inl ⟨r, e', hr, he', hf⟩
    | inr hr =>
      obtain ⟨rfl, hq⟩ := hr
      cases hq
      rw [he] at he'
      cases he'
      exact Or.inr ⟨rfl, hf⟩
  · rintro (⟨r, e', hr, he', hf⟩ | ⟨rfl, hf⟩)
    · exact ⟨r, e', getElem?_concat_iff.mpr (Or.inl hr), he', hf⟩
    · exact ⟨q, e, getElem?_concat_iff.mpr (Or.inr ⟨rfl, rfl⟩), he, hf⟩

/-- A path that is not removed keeps its rank. -/
theorem IsRank.negated (he : compile q = .ok e) (hm : e.matches f = false)
    (h : IsRank expand patterns f i) : IsRank expand (patterns ++ ['!' :: q]) f i := by
  have hr : ∀ j, Removes (patterns ++ ['!' :: q]) f j ↔ Removes patterns f j := by
    intro j
    simp [removes_negated he, hm]
  refine ⟨adds_negated.mpr h.adds, fun j hj => h.kept j ((hr j).mp hj), fun k hk hall => ?_⟩
  exact h.least k (adds_negated.mp hk) fun j hj => hall j ((hr j).mpr hj)

end Negated

/-- Paths are added each where it comes first, unless it is there already. -/
theorem exists_foldl_addNew (files found : List Text) :
    ∃ new, found.foldl addNew files = files ++ new ∧ new.Sublist found ∧ new.Nodup ∧
      ∀ f, f ∈ new ↔ f ∈ found ∧ f ∉ files := by
  induction found generalizing files with
  | nil => exact ⟨[], by simp, List.Sublist.refl [], List.nodup_nil, by simp⟩
  | cons g found ih =>
    rw [List.foldl_cons, addNew]
    split
    · next hg =>
      obtain ⟨new, hnew, hsub, hn, hmem⟩ := ih files
      refine ⟨new, hnew, hsub.cons g, hn, fun f => ?_⟩
      rw [hmem f, List.mem_cons]
      have hold : f = g → f ∈ files := by
        rintro rfl
        simpa using hg
      tauto
    · next hg =>
      obtain ⟨new, hnew, hsub, hn, hmem⟩ := ih (files ++ [g])
      have hg' : g ∉ files := by simpa using hg
      refine ⟨g :: new, by rw [hnew, List.append_assoc]; rfl, hsub.cons_cons g, ?_, fun f => ?_⟩
      · exact List.nodup_cons.mpr ⟨fun h => ((hmem g).mp h).2 (by simp), hn⟩
      · rw [List.mem_cons, hmem f, List.mem_append, List.mem_singleton, List.mem_cons]
        by_cases hf : f = g
        · simp [hf, hg']
        · simp [hf]

theorem foldl_addNew_nil (h : found.Nodup) : found.foldl addNew [] = found := by
  obtain ⟨new, hnew, hsub, -, hmem⟩ := exists_foldl_addNew [] found
  have hall : found ⊆ new := fun f hf => (hmem f).mpr ⟨hf, List.not_mem_nil⟩
  rw [hnew, List.nil_append]
  exact hsub.eq_of_length_le (List.subperm_of_subset h hall).length_le

theorem collected_nil (expand : Text → Except Fault (List Text)) : Collected expand [] [] := by
  refine ⟨fun f => ⟨fun h => (by cases h), ?_⟩, .nil⟩
  rintro ⟨i, hi, -⟩
  exact absurd (lt_of_adds hi) (Nat.not_lt_zero i)

theorem Collected.positive (h : Collected expand patterns files) (hp : p.head? ≠ some '!')
    (he : expand p = .ok found) (hs : Text.Sorted found) :
    Collected expand (patterns ++ [p]) (found.foldl addNew files) := by
  obtain ⟨new, hnew, hsub, hn, hmem⟩ := exists_foldl_addNew files found
  rw [hnew]
  constructor
  · intro f
    have hiff : (∃ i, Adds expand (patterns ++ [p]) f i ∧
        ∀ j, i < j → ¬ Removes (patterns ++ [p]) f j) ↔ f ∈ files ∨ f ∈ found := by
      rw [h.mem f]
      simp only [adds_positive hp he, removes_positive hp]
      constructor
      · rintro ⟨i, hi | ⟨-, hf⟩, hall⟩
        · exact Or.inl ⟨i, hi, hall⟩
        · exact Or.inr hf
      · rintro (⟨i, hi, hall⟩ | hf)
        · exact ⟨i, Or.inl hi, hall⟩
        · refine ⟨patterns.length, Or.inr ⟨rfl, hf⟩, fun j hlt hj => ?_⟩
          have hj := lt_of_removes hj
          omega
    rw [hiff, List.mem_append, hmem f]
    by_cases hf : f ∈ files <;> simp [hf]
  · have hrank : ∀ f ∈ new, IsRank expand (patterns ++ [p]) f patterns.length := by
      intro f hf
      obtain ⟨hfound, hnot⟩ := (hmem f).mp hf
      exact isRank_new hp he hfound (mt (h.mem f).mpr hnot)
    refine List.pairwise_append.mpr ⟨h.ordered.imp ?_, ?_, fun f hf g hg => ?_⟩
    · rintro f g ⟨i, k, hi, hk, hlt⟩
      exact ⟨i, k, hi.positive hp he, hk.positive hp he, hlt⟩
    · have hordered := Text.Sorted.pairwise_precedes (hs.sublist hsub) hn
      refine hordered.imp_of_mem fun hf hg hlt => ?_
      exact ⟨_, _, hrank _ hf, hrank _ hg, Or.inr ⟨rfl, hlt⟩⟩
    · obtain ⟨i, hi⟩ := exists_isRank ((h.mem f).mp hf)
      exact ⟨i, _, hi.positive hp he, hrank g hg, Or.inl (lt_of_adds hi.adds)⟩

theorem Collected.negated (h : Collected expand patterns files) (he : compile q = .ok e) :
    Collected expand (patterns ++ ['!' :: q]) (files.filter fun f => !e.matches f) := by
  constructor
  · intro f
    rw [List.mem_filter, h.mem f]
    simp only [adds_negated, removes_negated he, not_or, not_and]
    constructor
    · rintro ⟨⟨i, hi, hall⟩, hm⟩
      exact ⟨i, hi, fun j hlt => ⟨hall j hlt, fun _ => by simpa using hm⟩⟩
    · rintro ⟨i, hi, hall⟩
      have hm := (hall patterns.length (lt_of_adds hi)).2 rfl
      exact ⟨⟨i, hi, fun j hlt => (hall j hlt).1⟩, by simpa using hm⟩
  · refine (h.ordered.filter _).imp_of_mem ?_
    rintro f g hf hg ⟨i, k, hi, hk, hlt⟩
    have hmf : e.matches f = false := by simpa using (List.mem_filter.mp hf).2
    have hmg : e.matches g = false := by simpa using (List.mem_filter.mp hg).2
    exact ⟨i, k, hi.negated he hmf, hk.negated he hmg, hlt⟩

/-- What one pattern does to the collected paths. -/
theorem Collected.apply (h : Collected expand patterns files)
    (hs : ∀ found, expand p = .ok found → Text.Sorted found) {after : List Text}
    (ha : Matcher.apply expand files p = .ok after) : Collected expand (patterns ++ [p]) after := by
  rw [Matcher.apply.eq_def] at ha
  split at ha
  · next q =>
    obtain ⟨e, he, ha⟩ := bind_eq_ok_iff.mp ha
    cases ha
    exact h.negated he
  · next hp =>
    obtain ⟨found, he, ha⟩ := bind_eq_ok_iff.mp ha
    cases ha
    refine h.positive (fun hhead => ?_) he (hs found he)
    obtain ⟨q, rfl⟩ := List.head?_eq_some_iff.mp hhead
    exact hp q rfl

theorem collected_of_collect
    (hs : ∀ p found, expand p = .ok found → Text.Sorted found)
    (h : collect expand patterns = .ok files) : Collected expand patterns files := by
  induction patterns using List.reverseRecOn generalizing files with
  | nil =>
    cases h
    exact collected_nil expand
  | append_singleton patterns p ih =>
    rw [collect, List.foldlM_append] at h
    obtain ⟨before, hb, h⟩ := bind_eq_ok_iff.mp h
    rw [List.foldlM_cons] at h
    obtain ⟨after, ha, h⟩ := bind_eq_ok_iff.mp h
    cases h
    exact (ih hb).apply (hs p) ha

/-- Every collected path was found by some pattern. -/
theorem Collected.exists_found (h : Collected expand patterns files) (hf : f ∈ files) :
    ∃ p ∈ patterns, ∃ found, expand p = .ok found ∧ f ∈ found := by
  obtain ⟨i, ⟨p, found, hp, -, he, hfound⟩, -⟩ := (h.mem f).mp hf
  exact ⟨p, List.mem_of_getElem? hp, found, he, hfound⟩

/-- A single pattern that adds paths gives what it expands to. -/
theorem resolve_singleton {tree : Tree} {root : Path} (hp : p.head? ≠ some '!')
    (h : Matcher.expand tree root p = .ok found) (hn : found.Nodup) :
    (ofTree tree root).resolve [p] = .ok found := by
  have happly : Matcher.apply (Matcher.expand tree root) [] p = .ok found := by
    rw [Matcher.apply.eq_def]
    split
    · exact absurd rfl hp
    · rw [h]
      exact congrArg Except.ok (foldl_addNew_nil hn)
  change collect (Matcher.expand tree root) [p] = _
  rw [collect, List.foldlM_cons, happly]
  rfl

/-- A path is shown for an entry below the lead of a pattern, and what is shown is no path that
leads there: it is too long to be looked up, or shows a name that encodes no text. -/
def ShownOnly (tree : Tree) (root : Path) (pattern f : Text) : Prop :=
  Glob.hasMagic pattern = true ∧ ∃ inner names,
    tree.folderAt? (root.join ⟨(Glob.splitStatic pattern).1⟩).raw = some inner ∧
    names ≠ [] ∧ (inner.node? names).isSome ∧ f = candidate (Glob.splitStatic pattern).1 names ∧
    (4096 ≤ (root.join ⟨f⟩).raw.text.length ∨ ∃ n ∈ names, n.toText? = none)

/-- Something stands at a path that a pattern finds, or the path is only shown for an entry. -/
theorem isThere_expand {tree : Tree} {root : Path} (h : Matcher.expand tree root p = .ok found)
    (hf : f ∈ found) : tree.isThere (root.join ⟨f⟩).raw ∨ ShownOnly tree root p f := by
  obtain ⟨-, rfl⟩ | ⟨hm, ⟨-, rfl⟩ | ⟨inner, e, -, he, -⟩⟩ := expand_cases h
  · split at hf
    · next ht =>
      obtain rfl := List.mem_singleton.mp hf
      exact Or.inl ht
    · cases hf
  · cases hf
  · obtain ⟨names, hmeets, -, rfl⟩ := (mem_expand hm he h).mp hf
    obtain ⟨inner, hi, hne, hnode⟩ := hmeets.stands
    by_cases hshort : (root.join ⟨candidate (Glob.splitStatic p).1 names⟩).raw.text.length < 4096
    · by_cases htext : ∃ n ∈ names, n.toText? = none
      · exact Or.inr ⟨hm, inner, names, hi, hne, hnode, rfl, Or.inr htext⟩
      · refine Or.inl (isThere_candidate hi hne hnode (fun n hn => ?_) hshort)
        exact Option.isSome_iff_ne_none.mpr fun h => htext ⟨n, hn, h⟩
    · exact Or.inr ⟨hm, inner, names, hi, hne, hnode, rfl, Or.inl (Nat.le_of_not_lt hshort)⟩

/-- The paths of a list of patterns come each once: those that a pattern adds and no later one
removes, by the place of the pattern that added them and then by their bytes. Something stands at
each of them, unless it is only shown for an entry. -/
theorem resolve_exact {tree : Tree} {root : Path}
    (h : (ofTree tree root).resolve patterns = .ok files) :
    files.Nodup ∧
    (∀ f ∈ files, tree.isThere (root.join ⟨f⟩).raw ∨ ∃ p ∈ patterns, ShownOnly tree root p f) ∧
    (∀ f, f ∈ files ↔ ∃ i, Adds (Matcher.expand tree root) patterns f i ∧
      ∀ j, i < j → ¬ Removes patterns f j) ∧
    files.Pairwise (Outranks (Matcher.expand tree root) patterns) := by
  have hc : Collected (Matcher.expand tree root) patterns files :=
    collected_of_collect (fun _ _ => sorted_expand) h
  refine ⟨hc.nodup, fun f hf => ?_, hc.mem, hc.ordered⟩
  obtain ⟨p, hp, found, he, hfound⟩ := hc.exists_found hf
  exact (isThere_expand he hfound).imp_right fun hshown => ⟨p, hp, hshown⟩

/-- Files with the names `a` and `b`. -/
def pair : Tree :=
  (Tree.empty.setFile [Text.bytes ['a']] .empty).setFile [Text.bytes ['b']] .empty

/-- A path that is removed and added again stands behind those that stayed. -/
theorem resolve_exact_again :
    let patterns : List Text := [['*'], ['!', 'a'], ['a']]
    let files : List Text := [['b'], ['a']]
    (ofTree pair ⟨['.']⟩).resolve patterns = .ok files ∧
    files.Nodup ∧
    (∀ f ∈ files, pair.isThere (Path.join ⟨['.']⟩ ⟨f⟩).raw ∨
      ∃ p ∈ patterns, ShownOnly pair ⟨['.']⟩ p f) ∧
    (∀ f, f ∈ files ↔ ∃ i, Adds (Matcher.expand pair ⟨['.']⟩) patterns f i ∧
      ∀ j, i < j → ¬ Removes patterns f j) ∧
    files.Pairwise (Outranks (Matcher.expand pair ⟨['.']⟩) patterns) := by
  have hstar : Matcher.expand pair ⟨['.']⟩ ['*'] = .ok [['a'], ['b']] :=
    expand_of_sorted (by decide) rfl rfl (by decide +kernel) (by decide)
  have hagain : Matcher.expand pair ⟨['.']⟩ ['a'] = .ok [['a']] := by decide +kernel
  have h : (ofTree pair ⟨['.']⟩).resolve [['*'], ['!', 'a'], ['a']] = .ok [['b'], ['a']] := by
    change collect (Matcher.expand pair ⟨['.']⟩) _ = _
    generalize Matcher.expand pair ⟨['.']⟩ = expand at hstar hagain
    simp only [collect, List.foldlM_cons, List.foldlM_nil, apply, hstar, hagain]
    decide +kernel
  exact ⟨h, resolve_exact h⟩

/-- A path may be found with no room for its last name, or show a name that encodes no text. Then
nothing stands at what was found. -/
theorem not_isThere_resolve :
    let long := Tree.empty.setFile [Text.bytes ['a', 'b', 'c', 'd', 'e', 'f']] .empty
    let broken := Tree.empty.setFile [[0xFF]] .empty
    (ofTree long (hereBy 4091)).resolve [['*']] = .ok [['a', 'b', 'c', 'd', 'e', 'f']] ∧
    ¬ long.isThere ((hereBy 4091).join ⟨['a', 'b', 'c', 'd', 'e', 'f']⟩).raw ∧
    (ofTree broken ⟨['.']⟩).resolve [['*']] = .ok [['\uFFFD']] ∧
    ¬ broken.isThere (Path.join ⟨['.']⟩ ⟨['\uFFFD']⟩).raw := by
  intro long broken
  have hsplit : Glob.splitStatic ['*'] = ([], ['*']) := by decide
  have hexpand : ∀ root, long.folderAt? (root.join ⟨[]⟩).raw = some long.top →
      Matcher.expand long root ['*'] = .ok [['a', 'b', 'c', 'd', 'e', 'f']] := by
    intro root hfolder
    have hmet : candidates long.top (root.join ⟨[]⟩).raw [] ['*'] =
        [['a', 'b', 'c', 'd', 'e', 'f']] := by rfl
    refine expand_of_sorted (by decide) hfolder rfl ?_ (by decide)
    rw [hsplit, hmet]
    decide +kernel
  have hfound := hexpand (hereBy 4091) (folderAt?_hereBy (by decide) (by decide) rfl)
  refine ⟨resolve_singleton (by decide) hfound (by decide), fun h => ?_, by decide +kernel,
    by decide⟩
  obtain ⟨q, hq⟩ := Tree.isThere_iff.mp h
  exact textTrouble?_join_hereBy (by decide) (by decide) (by decide) (Tree.leads_iff.mp hq).1

end SourceMarks.Matcher
