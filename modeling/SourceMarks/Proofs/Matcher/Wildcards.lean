import SourceMarks.Proofs.Glob.Lead
import SourceMarks.Proofs.Glob.Reading
import SourceMarks.Proofs.Matcher.Collection
import SourceMarks.Proofs.Tree.Lookup

/-!
What one pattern of segments finds below a root without hidden names: the entries that the walk can
reach whose names can be aligned with its segments.
-/
namespace SourceMarks.Matcher
variable {tree : Tree} {root : Path} {pattern f s : Text} {found texts plain rest : List Text}
  {names : List RawText}

/-- A name of single bytes that does not begin with a point. -/
def IsPlainName (n : RawText) : Prop := ∃ t, n = Text.bytes t ∧ Glob.Ascii t ∧ t.head? ≠ some '.'

def isPlainName (n : RawText) : Bool :=
  n.toText?.any fun t => t.all (·.toNat < 128) && t.head? != some '.'

theorem isPlainName_iff {n : RawText} : isPlainName n = true ↔ IsPlainName n := by
  simp only [IsPlainName, ← RawText.toText?_eq_some_iff, isPlainName]
  cases n.toText? <;> simp [Glob.Ascii]

/-- All names below the root are plain. -/
def Visible (tree : Tree) (root : Path) : Prop :=
  ∀ names, tree.Below root.raw names → ∀ n ∈ names, IsPlainName n

/-- What a segment consists of if it is read with stars and question marks only. -/
def IsSegment (s : Text) : Prop :=
  s ≠ [] ∧ s.head? ≠ some '.' ∧ ∀ c ∈ s, c.toNat < 128 ∧ c ∉ Glob.reserved

instance (s : Text) : Decidable (IsSegment s) :=
  have := List.decidableBAll (fun c : Char => c.toNat < 128 ∧ c ∉ Glob.reserved) s
  inferInstanceAs (Decidable
    (s ≠ [] ∧ s.head? ≠ some '.' ∧ ∀ c ∈ s, c.toNat < 128 ∧ c ∉ Glob.reserved))

/-- The path that is looked up for a pattern: all of it, or the folders in front of the
wildcards. -/
def lookedUp (root : Path) (pattern : Text) : Path :=
  root.join ⟨if Glob.hasMagic pattern then (Glob.splitStatic pattern).1 else pattern⟩

/-- The longest path to look up on the way to an entry: that of the folder it is in, or its own
where there is no walk. -/
def wayTo (root : Path) (pattern : Text) (names : List RawText) : RawPath :=
  root.raw.join (.ofParts (if Glob.hasMagic pattern then names.dropLast else names))

/-- The path of an entry below the root whose names can be aligned with the segments of a pattern,
and which can be reached. -/
def Finds (tree : Tree) (root : Path) (pattern f : Text) : Prop :=
  ∃ names, tree.Below root.raw names ∧ Tree.textTrouble? (wayTo root pattern names) = none ∧
    Glob.Aligned (pattern.split '/') (names.map RawText.shown) ∧
    f = Text.join ['/'] (names.map RawText.shown)

/-- Below a root without hidden names an entry is found by texts. -/
theorem exists_plain (ht : Visible tree root) (hb : tree.Below root.raw names) :
    ∃ texts : List Text, names = texts.map Text.bytes ∧ Glob.Spelled texts ∧
      ∀ t ∈ texts, t.head? ≠ some '.' := by
  have hplain := ht names hb
  obtain ⟨texts, rfl⟩ := RawText.exists_texts fun n hn => by
    obtain ⟨t, rfl, -⟩ := hplain n hn
    simp
  rw [List.forall_mem_map] at hplain
  have htexts : ∀ t ∈ texts, Glob.Ascii t ∧ t.head? ≠ some '.' := by
    intro t hm
    obtain ⟨t', he, h⟩ := hplain t hm
    exact Text.bytes_inj he ▸ h
  have hsolid := solid_shown hb.isName
  rw [RawText.shown_map_bytes] at hsolid
  exact ⟨texts, rfl, fun t hm => ⟨(hsolid t hm).1, (hsolid t hm).2, (htexts t hm).1⟩,
    fun t hm => (htexts t hm).2⟩

theorem enters_of_isSegment (h : IsSegment s) : Tree.Enters s.bytes := by
  refine ⟨mt Text.bytes_eq_nil.mp h.1, ?_, ?_⟩
  · intro he
    have hs : s = ['.'] := Text.bytes_inj he
    exact h.2.1 (by rw [hs]; rfl)
  · intro he
    have hs : s = ['.', '.'] := Text.bytes_inj he
    exact h.2.1 (by rw [hs]; rfl)

theorem reveals_of_visible {reach : Glob.Reach} (hh : ∀ t ∈ texts, t.head? ≠ some '.')
    (depth : Nat) : Listing.Admitted (reveals reach) depth (texts.map Text.bytes) := by
  induction texts generalizing depth with
  | nil => trivial
  | cons t texts ih =>
    rw [List.forall_mem_cons] at hh
    refine ⟨?_, ih hh.2 (depth + 1)⟩
    simp [reveals, Glob.isHidden, Glob.isDotted, hh.1]

/-- The walk meets all names that can be aligned with the segments it was told about. -/
theorem admitted_of_aligned (hne : rest ≠ []) (hs : ∀ s ∈ rest, '/' ∉ s)
    (hh : ∀ t ∈ texts, t.head? ≠ some '.') (ha : Glob.Aligned rest texts) :
    Listing.Admitted (Glob.reachOf (Text.join ['/'] rest)).admits 1 (texts.map Text.bytes) := by
  refine admitted_iff.mpr ⟨admitted_of_length ?_, reveals_of_visible hh 1⟩
  rw [Glob.reachOf, Text.split_join hs hne, List.length_map]
  cases hd : Glob.hasDoubleStar (Text.join ['/'] rest) with
  | true => exact Or.inl rfl
  | false =>
    have hl := Glob.length_of_aligned (Glob.doubleStar_not_mem hd) ha
    refine Or.inr ?_
    dsimp only
    omega

section Pattern
variable (hp : ∀ s ∈ pattern.split '/', IsSegment s)
include hp

theorem solid_of_isSegment : ∀ s ∈ pattern.split '/', s ≠ [] ∧ '/' ∉ s :=
  fun s hs => ⟨(hp s hs).1, Text.not_mem_of_mem_split hs⟩

/-- What stands for a segment in a lookup. -/
theorem enters_segment {segments : List Text} (hs : ∀ s ∈ segments, s ∈ pattern.split '/') :
    ∀ n ∈ segments.map Text.bytes, Tree.Enters n ∧ PathSymbol.slash ∉ n := by
  rw [List.forall_mem_map]
  exact fun s hm => ⟨enters_of_isSegment (hp s (hs s hm)),
    mt Text.slash_mem_bytes.mp (solid_of_isSegment hp s (hs s hm)).2⟩

theorem compile_pattern : compile pattern =
    .ok (Glob.patternExpression (Glob.tokensOf .start (pattern.split '/')).reverse) := by
  have hs : ∀ s ∈ pattern.split '/', ∀ c ∈ s, c ∉ Glob.structural :=
    fun s hm c hc => Glob.not_mem_structural ((hp s hm).2.2 c hc).2
  rw [compile, Glob.compile_segments hs]
  rfl

/-- Of the paths below the root the expression of the pattern matches those that can be aligned. -/
theorem matches_iff_aligned {e : Glob.Expression} (he : compile pattern = .ok e)
    (hs : Glob.Spelled texts) (hne : texts ≠ []) :
    e.matches (Text.join ['/'] texts) = true ↔ Glob.Aligned (pattern.split '/') texts := by
  rw [compile_pattern hp] at he
  cases he
  refine Glob.matches_patternExpression (Text.split_ne_nil '/' pattern) (fun s hm => ?_) hs hne
  exact ⟨(hp s hm).1, Text.not_mem_of_mem_split hm, fun c hc => ((hp s hm).2.2 c hc).1⟩

/-- A pattern without wildcards finds itself if it is there. -/
theorem isThere_iff_finds (ht : Visible tree root) (hm : Glob.hasMagic pattern = false) :
    f ∈ (if tree.isThere (root.join ⟨pattern⟩).raw then [pattern] else []) ↔
      Finds tree root pattern f := by
  have hjoin : Text.join ['/'] (pattern.split '/') = pattern := Text.join_split '/' pattern
  have hplain : ∀ s ∈ pattern.split '/', Glob.hasMagic s = false := by
    rw [← hjoin, Glob.hasMagic_join, List.any_eq_false] at hm
    simpa using hm
  have hpath : (root.join ⟨pattern⟩).raw =
      root.raw.join (.ofParts ((pattern.split '/').map Text.bytes)) := by
    rw [← Path.raw_ofParts, ← Path.raw_join, Path.ofParts, slash_char, hjoin]
  have hthere : tree.isThere (root.join ⟨pattern⟩).raw ↔
      Tree.textTrouble? (root.join ⟨pattern⟩).raw = none ∧
        tree.Below root.raw ((pattern.split '/').map Text.bytes) := by
    rw [hpath]
    exact Tree.isThere_join_iff (enters_segment hp fun s hs => hs) (by simp [Text.split_ne_nil])
  have hmem : f ∈ (if tree.isThere (root.join ⟨pattern⟩).raw then [pattern] else []) ↔
      tree.isThere (root.join ⟨pattern⟩).raw ∧ f = pattern := by
    split <;> simp_all
  have hway : ∀ names, wayTo root pattern names = root.raw.join (.ofParts names) := by
    intro names
    rw [wayTo, hm, if_neg (by decide)]
  rw [hmem, hthere, hpath]
  simp only [Finds, hway]
  constructor
  · rintro ⟨⟨htext, hb⟩, rfl⟩
    refine ⟨_, hb, htext, ?_, ?_⟩
    · rw [RawText.shown_map_bytes]
      exact (Glob.aligned_plain hplain).mpr rfl
    · rw [RawText.shown_map_bytes, hjoin]
  · rintro ⟨names, hb, htext, ha, rfl⟩
    obtain ⟨texts, rfl, -⟩ := exists_plain ht hb
    rw [RawText.shown_map_bytes] at ha ⊢
    obtain rfl := (Glob.aligned_plain hplain).mp ha
    exact ⟨⟨htext, hb⟩, hjoin⟩

end Pattern

/-- Below a path that is not empty, the folder that an entry is in can be looked up if the path from
the root to this folder can. -/
theorem textTrouble?_wayTo {parts : List RawText} {q : RawPath}
    (hparts : ∀ n ∈ parts, n ≠ [] ∧ PathSymbol.slash ∉ n)
    (hn : ∀ n ∈ names, n ≠ [] ∧ PathSymbol.slash ∉ n) (hne : names ≠ [])
    (hq : (q.join (.ofParts parts)).text ≠ []) :
    Tree.textTrouble? (q.join (.ofParts parts)) = none ∧
        Tree.textTrouble? ((q.join (.ofParts parts)).under names.dropLast) = none ↔
      Tree.textTrouble? (q.join (.ofParts (parts ++ names).dropLast)) = none := by
  have hinit : ∀ n ∈ names.dropLast, n ≠ [] ∧ PathSymbol.slash ∉ n := fun n hm =>
    hn n (List.dropLast_subset _ hm)
  have hunder : (q.join (.ofParts parts)).under names.dropLast =
      q.join (.ofParts (parts ++ names).dropLast) := by
    rw [List.dropLast_append_of_ne_nil hne]
    by_cases hi : names.dropLast = []
    · rw [hi, List.append_nil]
      rfl
    · have hrel := Path.isAbsolute_ofParts (Path.slash_not_mem_names hinit) (Path.head?_names hinit)
      rw [Path.under_eq hinit hi, Path.join_join hrel, Path.ofParts_join_names hparts hinit hi]
  rw [hunder]
  refine and_iff_right_of_imp fun h => ?_
  rw [← hunder] at h
  exact Tree.textTrouble?_front (Path.prefix_text_under hinit _) hq h

/-- The path shown for texts below segments is that of the segments and the texts in a row. -/
theorem candidate_join (hs : ∀ s ∈ plain, s ≠ [] ∧ '/' ∉ s) (hne : texts ≠ []) :
    candidate (Text.join ['/'] plain) (texts.map Text.bytes) =
      Text.join ['/'] (plain ++ texts) := by
  rw [candidate, Glob.joinLead_eq, RawText.shown_map_bytes, opened_join hs hne]

section Pattern
variable (hp : ∀ s ∈ pattern.split '/', IsSegment s)
include hp

section Split
variable (hm : Glob.hasMagic pattern = true) (hsegments : pattern.split '/' = plain ++ rest)
  (hsplit : Glob.splitStatic pattern = (Text.join ['/'] plain, Text.join ['/'] rest))
  (hl : (lookedUp root pattern).text ≠ [])
include hm hsegments hsplit hl

/-- The entries that can be reached below the lead are those below the root that can be reached
behind the segments of the lead. -/
theorem reached_iff (hne : names ≠ []) :
    ((∃ inner, tree.folderAt? (root.join ⟨(Glob.splitStatic pattern).1⟩).raw = some inner ∧
        names ≠ [] ∧ (inner.node? names).isSome) ∧
      Tree.textTrouble?
        ((root.join ⟨(Glob.splitStatic pattern).1⟩).raw.under names.dropLast) = none) ↔
    tree.Below root.raw (plain.map Text.bytes ++ names) ∧
      Tree.textTrouble? (wayTo root pattern (plain.map Text.bytes ++ names)) = none := by
  have henters := enters_segment hp fun s hs => hsegments ▸ List.mem_append_left rest hs
  have hbytes : ∀ n ∈ plain.map Text.bytes, n ≠ [] ∧ PathSymbol.slash ∉ n := fun n hn =>
    ⟨(henters n hn).1.1, (henters n hn).2⟩
  have hlead : (root.join ⟨Text.join ['/'] plain⟩).raw =
      root.raw.join (.ofParts (plain.map Text.bytes)) := by
    rw [← Path.raw_ofParts, ← Path.raw_join]
    rfl
  have htext : (root.raw.join (.ofParts (plain.map Text.bytes))).text ≠ [] := by
    rw [lookedUp, if_pos hm, hsplit] at hl
    rw [← hlead]
    exact mt Text.bytes_eq_nil.mp hl
  rw [wayTo, if_pos hm, hsplit, hlead]
  have hsolid : tree.Below root.raw (plain.map Text.bytes ++ names) →
      ∀ n ∈ names, n ≠ [] ∧ PathSymbol.slash ∉ n := fun hb n hn =>
    (hb.isName n (List.mem_append_right _ hn)).solid
  constructor
  · rintro ⟨⟨inner, hi, -, hnode⟩, hopens⟩
    obtain ⟨hlookup, hb⟩ := (Tree.folderAt?_join_iff henters hne).mp ⟨inner, hi, hnode⟩
    exact ⟨hb, (textTrouble?_wayTo hbytes (hsolid hb) hne htext).mp ⟨hlookup, hopens⟩⟩
  · rintro ⟨hb, hway⟩
    obtain ⟨hlookup, hopens⟩ := (textTrouble?_wayTo hbytes (hsolid hb) hne htext).mpr hway
    obtain ⟨inner, hi, hnode⟩ := (Tree.folderAt?_join_iff henters hne).mpr ⟨hlookup, hb⟩
    exact ⟨⟨inner, hi, hne, hnode⟩, hopens⟩

/-- What the pattern meets has texts for names, since it stands below the root. -/
theorem exists_texts_of_meets (ht : Visible tree root) {e : Glob.Expression}
    (h : Meets tree root pattern e names) :
    ∃ texts : List Text, names = texts.map Text.bytes ∧ texts ≠ [] := by
  have hne : names ≠ [] := by
    obtain ⟨-, -, hne, -⟩ := h.stands
    exact hne
  have hb := ((reached_iff hp hm hsegments hsplit hl hne).mp ⟨h.stands, h.opens⟩).1
  obtain ⟨all, hall, -⟩ := exists_plain ht hb
  obtain ⟨front, texts, -, -, rfl⟩ := List.map_eq_append_iff.mp hall.symm
  exact ⟨texts, rfl, by simpa using hne⟩

/-- What the pattern meets below its lead are the entries that can be reached and whose names can be
aligned with its segments. -/
theorem meets_iff (ht : Visible tree root) {e : Glob.Expression} (he : compile pattern = .ok e)
    (hne : texts ≠ []) :
    Meets tree root pattern e (texts.map Text.bytes) ↔
      tree.Below root.raw ((plain ++ texts).map Text.bytes) ∧
      Tree.textTrouble? (wayTo root pattern ((plain ++ texts).map Text.bytes)) = none ∧
      Glob.Aligned (pattern.split '/') (plain ++ texts) := by
  have hplain : ∀ s ∈ plain, s ≠ [] ∧ '/' ∉ s := fun s hs =>
    solid_of_isSegment hp s (hsegments ▸ List.mem_append_left rest hs)
  have hbytes : texts.map Text.bytes ≠ [] := by simpa using hne
  have hfits : tree.Below root.raw ((plain ++ texts).map Text.bytes) →
      (e.matches (candidate (Glob.splitStatic pattern).1 (texts.map Text.bytes)) = true ↔
        Glob.Aligned (pattern.split '/') (plain ++ texts)) := by
    intro hb
    obtain ⟨all, hall, hspelled, -⟩ := exists_plain ht hb
    obtain rfl := List.map_injective_iff.mpr (fun _ _ => Text.bytes_inj) hall
    rw [hsplit, candidate_join hplain hne]
    exact matches_iff_aligned hp he hspelled (by simp [hne])
  constructor
  · intro h
    obtain ⟨hb, hway⟩ := (reached_iff hp hm hsegments hsplit hl hbytes).mp ⟨h.stands, h.opens⟩
    rw [← List.map_append] at hb hway
    exact ⟨hb, hway, (hfits hb).mp h.fits⟩
  · rintro ⟨hb, hway, ha⟩
    have hmatch := (hfits hb).mpr ha
    rw [List.map_append] at hb hway
    obtain ⟨hstands, hopens⟩ := (reached_iff hp hm hsegments hsplit hl hbytes).mpr ⟨hb, hway⟩
    exact ⟨hstands, hopens, hmatch⟩

end Split

/-- A pattern with wildcards finds what the walk from its lead meets and its expression matches. -/
theorem mem_expand_iff_finds (ht : Visible tree root) (hm : Glob.hasMagic pattern = true)
    (hl : (lookedUp root pattern).text ≠ []) (h : expand tree root pattern = .ok found) :
    f ∈ found ↔ Finds tree root pattern f := by
  have hjoin : Text.join ['/'] (pattern.split '/') = pattern := Text.join_split '/' pattern
  obtain ⟨plain, rest, hsegments, hplain, hrest, hsplit⟩ :=
    Glob.splitStatic_segments (solid_of_isSegment hp) (by rwa [hjoin])
  rw [hjoin] at hsplit
  have hps : ∀ s ∈ plain, s ≠ [] ∧ '/' ∉ s := fun s hs =>
    solid_of_isSegment hp s (hsegments ▸ List.mem_append_left rest hs)
  rw [mem_expand hm (compile_pattern hp) h, hsplit]
  constructor
  · rintro ⟨names, hmet, -, rfl⟩
    obtain ⟨texts, rfl, htexts⟩ := exists_texts_of_meets hp hm hsegments hsplit hl ht hmet
    obtain ⟨hb, hway, ha⟩ :=
      (meets_iff hp hm hsegments hsplit hl ht (compile_pattern hp) htexts).mp hmet
    refine ⟨_, hb, hway, ?_, ?_⟩
    · rwa [RawText.shown_map_bytes]
    · rw [RawText.shown_map_bytes, candidate_join hps htexts]
  · rintro ⟨all, hb, hway, ha, rfl⟩
    obtain ⟨texts, rfl, -, hdots⟩ := exists_plain ht hb
    rw [RawText.shown_map_bytes] at ha ⊢
    obtain ⟨back, rfl, hback⟩ := (Glob.aligned_plain_append hplain).mp (hsegments ▸ ha)
    have hne : back ≠ [] := by
      rintro rfl
      exact Glob.aligned_nil hrest hback
    have hmet :=
      (meets_iff hp hm hsegments hsplit hl ht (compile_pattern hp) hne).mpr ⟨hb, hway, ha⟩
    refine ⟨back.map Text.bytes, hmet, ?_, (candidate_join hps hne).symm⟩
    exact admitted_of_aligned hrest
      (fun s hs => (solid_of_isSegment hp s (hsegments ▸ List.mem_append_right plain hs)).2)
      (fun t hm => hdots t (List.mem_append_right plain hm)) hback

theorem mem_expand_iff (ht : Visible tree root) (hl : (lookedUp root pattern).text ≠ [])
    (h : expand tree root pattern = .ok found) : f ∈ found ↔ Finds tree root pattern f := by
  cases hm : Glob.hasMagic pattern with
  | true => exact mem_expand_iff_finds hp ht hm hl h
  | false =>
    obtain ⟨-, rfl⟩ | ⟨hm', -⟩ := expand_cases h
    · exact isThere_iff_finds hp ht hm
    · rw [hm] at hm'
      cases hm'

theorem exists_expand (tree : Tree) (root : Path) :
    ∃ found, expand tree root pattern = .ok found := by
  rw [expand]
  split
  · exact ⟨_, rfl⟩
  · dsimp only
    split
    · exact ⟨_, rfl⟩
    · rw [compile_pattern hp]
      exact ⟨_, rfl⟩

theorem head?_pattern : pattern.head? ≠ some '!' := by
  intro h
  obtain ⟨negated, rfl⟩ := List.head?_eq_some_iff.mp h
  have hslash : '!' ≠ '/' := by decide
  obtain ⟨s, rest, -, hs⟩ := Text.split_cons_of_ne hslash negated
  exact ((hp ('!' :: s) (hs ▸ List.mem_cons_self)).2.2 '!' List.mem_cons_self).2 (by decide)

/-- What is found is in strict byte order, since plain names are shown as they are. -/
theorem pairwise_expand (ht : Visible tree root) (h : expand tree root pattern = .ok found) :
    found.Pairwise Text.Precedes := by
  refine Text.Sorted.pairwise_precedes (sorted_expand h) ?_
  cases hm : Glob.hasMagic pattern with
  | false =>
    obtain ⟨-, rfl⟩ | ⟨hm', -⟩ := expand_cases h
    · split <;> simp
    · rw [hm] at hm'
      cases hm'
  | true =>
    obtain ⟨entries, hn, hperm, hmem⟩ := exists_entries hm (compile_pattern hp) h
    rw [hperm.nodup_iff]
    refine nodup_candidate hn (fun names hm => ((hmem names).mp hm).1.isName) fun names hmn => ?_
    have hmet := ((hmem names).mp hmn).1
    have hl : (lookedUp root pattern).text ≠ [] := by
      obtain ⟨inner, hi, -⟩ := hmet.stands
      rw [lookedUp, if_pos hm]
      exact mt Text.bytes_eq_nil.mpr
        (Tree.textTrouble?_eq_none_iff.mp (textTrouble?_of_folderAt? hi)).2.1
    have hjoin : Text.join ['/'] (pattern.split '/') = pattern := Text.join_split '/' pattern
    obtain ⟨plain, rest, hsegments, -, -, hsplit⟩ :=
      Glob.splitStatic_segments (solid_of_isSegment hp) (by rwa [hjoin])
    rw [hjoin] at hsplit
    obtain ⟨texts, rfl, -⟩ := exists_texts_of_meets hp hm hsegments hsplit hl ht hmet
    simp

/-- Below a root with plain names a pattern of segments resolves to paths in strict byte order.
Unless the path that is looked up first is empty, they are those of all entries below the root that
can be reached and whose names can be aligned with the segments. -/
theorem resolve_wildcards (ht : Visible tree root) :
    ∃ files, (ofTree tree root).resolve [pattern] = .ok files ∧ files.Pairwise Text.Precedes ∧
      ((lookedUp root pattern).text ≠ [] → ∀ f, f ∈ files ↔ Finds tree root pattern f) := by
  obtain ⟨found, h⟩ := exists_expand hp tree root
  have hs := pairwise_expand hp ht h
  refine ⟨found, resolve_singleton (head?_pattern hp) h (hs.imp fun h => h.2), hs, fun hl f => ?_⟩
  exact mem_expand_iff hp ht hl h

end Pattern

/-- Whether all names at any depth are plain. -/
def hasPlainNames : Listing → Bool
  | .nil => true
  | .file n _ rest => isPlainName n && hasPlainNames rest
  | .folder n inner rest => isPlainName n && hasPlainNames inner && hasPlainNames rest

theorem isPlainName_of_node? {l : Listing} (hl : hasPlainNames l = true)
    (h : (l.node? names).isSome) : ∀ n ∈ names, IsPlainName n := by
  induction l generalizing names with
  | nil => cases names <;> simp [Listing.node?_cons, Listing.find?] at h ⊢
  | file m b rest ih =>
    rw [hasPlainNames, Bool.and_eq_true] at hl
    cases names with
    | nil => simp
    | cons n names =>
      rw [Listing.node?_cons, Listing.find?] at h
      split at h
      · next hn =>
        have hnil : names = [] := by simpa [Entry.node?] using h
        simpa [hnil, ← hn] using isPlainName_iff.mp hl.1
      · exact ih hl.2 (by rwa [Listing.node?_cons])
  | folder m inner rest ihi ihr =>
    rw [hasPlainNames, Bool.and_eq_true, Bool.and_eq_true] at hl
    cases names with
    | nil => simp
    | cons n names =>
      rw [Listing.node?_cons, Listing.find?] at h
      split at h
      · next hn =>
        exact List.forall_mem_cons.mpr ⟨hn ▸ isPlainName_iff.mp hl.1.1, ihi hl.1.2 h⟩
      · exact ihr hl.2 (by rwa [Listing.node?_cons])

theorem visible_of_hasPlainNames (h : hasPlainNames tree.top = true) : Visible tree root := by
  rintro names ⟨-, q, -, hnode⟩ n hn
  exact isPlainName_of_node? h hnode n (List.mem_append_right q hn)

/-- A folder with files at two depths. -/
def nested : Tree :=
  (((Tree.empty.setFolder [Text.bytes ['a']]).setFolder
    [Text.bytes ['a'], Text.bytes ['b']]).setFile
      [Text.bytes ['a'], Text.bytes ['b'], Text.bytes ['y']] .empty).setFile
        [Text.bytes ['a'], Text.bytes ['x']] .empty

theorem visible_nested : Visible nested ⟨['.']⟩ := visible_of_hasPlainNames (by decide)

/-- A double star takes no folder or one, and folders are found like files. -/
theorem resolve_wildcards_nested :
    let pattern : Text := ['a', '/', '*', '*', '/', '*']
    (ofTree nested ⟨['.']⟩).resolve [pattern] =
      .ok [['a', '/', 'b'], ['a', '/', 'b', '/', 'y'], ['a', '/', 'x']] ∧
    Visible nested ⟨['.']⟩ ∧ (∀ s ∈ pattern.split '/', IsSegment s) ∧
    (lookedUp ⟨['.']⟩ pattern).text ≠ [] ∧
    ∃ files, (ofTree nested ⟨['.']⟩).resolve [pattern] = .ok files ∧ files.Pairwise Text.Precedes ∧
      ((lookedUp ⟨['.']⟩ pattern).text ≠ [] →
        ∀ f, f ∈ files ↔ Finds nested ⟨['.']⟩ pattern f) := by
  have hp : ∀ s ∈ Text.split '/' ['a', '/', '*', '*', '/', '*'], IsSegment s := by decide
  exact ⟨resolve_singleton (by decide)
      (expand_of_sorted (by decide) rfl rfl (by decide +kernel) (by decide)) (by decide),
    visible_nested, hp, by decide, resolve_wildcards hp visible_nested⟩

/-- Below a root with a long path a file can be aligned with a double star, but its folder cannot be
opened. -/
theorem not_resolve_wildcards :
    Visible deep (hereBy 4091) ∧ (∀ s ∈ Text.split '/' ['*', '*'], IsSegment s) ∧
    (ofTree deep (hereBy 4091)).resolve [['*', '*']] = .ok [['a', 'b', 'c', 'd']] ∧
    ¬ ∃ files, (ofTree deep (hereBy 4091)).resolve [['*', '*']] = .ok files ∧
      files.Pairwise Text.Precedes ∧
      ∀ f, f ∈ files ↔ ∃ names, deep.Below (hereBy 4091).raw names ∧
        Glob.Aligned (Text.split '/' ['*', '*']) (names.map RawText.shown) ∧
        f = Text.join ['/'] (names.map RawText.shown) := by
  have hfound : (ofTree deep (hereBy 4091)).resolve [['*', '*']] = .ok [['a', 'b', 'c', 'd']] :=
    resolve_singleton (by decide) expand_deep (by decide)
  refine ⟨visible_of_hasPlainNames (by decide), by decide, hfound, ?_⟩
  rintro ⟨files, h, -, hfiles⟩
  rw [hfound] at h
  cases h
  let names : List RawText := [Text.bytes ['a', 'b', 'c', 'd'], Text.bytes ['x']]
  have hbelow : deep.Below (hereBy 4091).raw names := by
    have hleads : deep.Leads (hereBy 4091).raw [] := leads_hereBy (by decide) rfl
    exact ⟨List.cons_ne_nil _ _, [], (Tree.leads_iff_reaches.mp hleads).2, by decide⟩
  have haligned : Glob.Aligned (Text.split '/' ['*', '*']) (names.map RawText.shown) :=
    ⟨_, [], (List.append_nil _).symm, by simp [names], rfl⟩
  exact absurd ((hfiles _).mpr ⟨names, hbelow, haligned, rfl⟩) (by decide)

end SourceMarks.Matcher
