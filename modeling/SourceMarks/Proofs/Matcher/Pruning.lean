import SourceMarks.Proofs.Glob.Cut
import SourceMarks.Proofs.Glob.Separators
import SourceMarks.Proofs.Matcher.Expand

/-!
The walk loses nothing that it can reach. A pattern without double stars matches no path that goes
deeper below its lead than its rest has segments, so it finds what it would find among all entries
there whose folders can be opened, less those with a hidden name that it does not admit.
-/
namespace SourceMarks.Matcher
variable {tree : Tree} {root : Path} {pattern f : Text} {found : List Text} {names : List RawText}
  {entries : List (List RawText)} {e : Glob.Expression}

/-- In byte order, what is shown for each of the entries below the lead of a pattern that can be
reached and whose path it matches, if no hidden name stands where the pattern admits none. -/
structure Exhausts (tree : Tree) (root : Path) (pattern : Text) (e : Glob.Expression)
    (found : List Text) (entries : List (List RawText)) : Prop where
  sorted : Text.Sorted found
  shown : found.Perm (entries.map (candidate (Glob.splitStatic pattern).1))
  distinct : entries.Nodup
  mem : ∀ names, names ∈ entries ↔ Meets tree root pattern e names ∧
    Listing.Admitted (reveals (Glob.reachOf (Glob.splitStatic pattern).2)) 1 names

/-- If all names encode texts, no path comes twice. -/
theorem Exhausts.pairwise (h : Exhausts tree root pattern e found entries)
    (htext : ∀ names ∈ entries, ∀ n ∈ names, n.toText?.isSome) : found.Pairwise Text.Precedes := by
  refine h.sorted.pairwise_precedes (h.shown.nodup_iff.mpr ?_)
  exact nodup_candidate h.distinct (fun names hm => ((h.mem names).mp hm).1.isName) htext

section Pattern
variable (hm : Glob.hasMagic pattern = true) (hset : '[' ∉ pattern) (hesc : '\\' ∉ pattern)
  (he : compile pattern = .ok e)
include hm hset hesc he

/-- What a pattern matches below its lead is no deeper than its rest has segments. -/
theorem length_of_matches (hd : Glob.hasDoubleStar (Glob.splitStatic pattern).2 = false)
    (hn : ∀ n ∈ names, IsName n) (hne : names ≠ [])
    (hmatch : e.matches (candidate (Glob.splitStatic pattern).1 names) = true) :
    names.length ≤ ((Glob.splitStatic pattern).2.split '/').length := by
  obtain ⟨slashes, hpattern, hslashes, hlead⟩ := Glob.splitStatic_parts hm
  have he' : Glob.compile pattern = .ok e := mapError_eq_ok_iff.mp he
  have hshown := solid_shown hn
  have hslash : ∀ t ∈ names.map RawText.shown, '/' ∉ t := fun t ht => (hshown t ht).2
  rw [hpattern] at he' hset hesc
  obtain ⟨w, hbytes, hcount⟩ := Glob.exists_of_matches hlead hset hesc hd he' hmatch
  rw [candidate, Glob.joinLead_eq, Text.bytes_append, Text.bytes_append, List.append_assoc,
    List.append_cancel_left_eq] at hbytes
  have hnil : slashes = [] := by
    cases slashes with
    | nil => rfl
    | cons c slashes =>
      obtain rfl := hslashes c List.mem_cons_self
      obtain ⟨x, y, hxy, hx, -⟩ := Text.exists_of_bytes_slash (u := []) hbytes
      obtain rfl : [] = x := Text.bytes_inj hx
      have hrelative := Path.isAbsolute_ofParts hslash (Path.head?_names hshown)
      rw [Path.ofParts, slash_char, hxy] at hrelative
      cases hrelative
  rw [hnil] at hbytes
  have hjoin := Text.split_join hslash (by simpa using hne)
  have hlength : names.length = (names.map RawText.shown).length := (List.length_map _).symm
  rw [hlength, ← hjoin, Text.length_split, Text.length_split, ← Text.count_bytes, hbytes]
  exact Nat.succ_le_succ hcount

/-- A pattern that can be read finds all that it can reach, at whatever depth, and in strict order
if the names encode texts. -/
theorem expand_exhaustive :
    ∃ found entries, expand tree root pattern = .ok found ∧
      Exhausts tree root pattern e found entries ∧
      ((∀ names ∈ entries, ∀ n ∈ names, n.toText?.isSome) → found.Pairwise Text.Precedes) := by
  obtain ⟨found, h⟩ : ∃ found, expand tree root pattern = .ok found := by
    rw [expand, hm]
    simp only [Bool.not_true, Bool.false_eq_true, if_false, he]
    split
    · exact ⟨_, rfl⟩
    · exact ⟨_, rfl⟩
  obtain ⟨entries, hn, hperm, hmem⟩ := exists_entries hm he h
  have hall : Exhausts tree root pattern e found entries := by
    refine ⟨sorted_expand h, hperm, hn, fun names => ?_⟩
    rw [hmem, admitted_iff]
    refine and_congr_right fun hmet => and_iff_right_of_imp fun _ => ?_
    obtain ⟨-, -, hne, -⟩ := hmet.stands
    -- The bound on the depth says nothing that a match does not say.
    refine admitted_of_length ?_
    cases hd : Glob.hasDoubleStar (Glob.splitStatic pattern).2 with
    | true => exact Or.inl hd
    | false =>
      have hlength := length_of_matches hm hset hesc he hd hmet.isName hne hmet.fits
      exact Or.inr (by rw [Nat.add_comm]; exact Nat.succ_le_succ hlength)
  exact ⟨found, entries, h, hall, hall.pairwise⟩

end Pattern

/-- A folder in a folder, with a file and a hidden one. -/
def shaded : Tree :=
  (((Tree.empty.setFolder [Text.bytes ['a']]).setFolder
    [Text.bytes ['a'], Text.bytes ['b']]).setFile
      [Text.bytes ['a'], Text.bytes ['b'], Text.bytes ['x']] .empty).setFile
        [Text.bytes ['a'], Text.bytes ['b'], Text.bytes ['.', 'y']] .empty

/-- An alternative with a separator counts as two segments, and the last star shows no hidden
file. -/
theorem expand_exhaustive_shaded :
    let pattern : Text := ['\x7b', 'a', '/', 'b', ',', 'c', '\x7d', '/', '*']
    expand shaded ⟨['.']⟩ pattern = .ok [['a', '/', 'b', '/', 'x']] ∧
    Glob.hasMagic pattern = true ∧ '[' ∉ pattern ∧ '\\' ∉ pattern ∧
    ∃ e, compile pattern = .ok e ∧
    ∃ found entries, expand shaded ⟨['.']⟩ pattern = .ok found ∧
      Exhausts shaded ⟨['.']⟩ pattern e found entries ∧
      ((∀ names ∈ entries, ∀ n ∈ names, n.toText?.isSome) → found.Pairwise Text.Precedes) := by
  have he : ∃ e, compile ['\x7b', 'a', '/', 'b', ',', 'c', '\x7d', '/', '*'] = .ok e := ⟨_, rfl⟩
  obtain ⟨e, he⟩ := he
  have hm : Glob.hasMagic ['\x7b', 'a', '/', 'b', ',', 'c', '\x7d', '/', '*'] = true := by decide
  have hset : '[' ∉ ['\x7b', 'a', '/', 'b', ',', 'c', '\x7d', '/', '*'] := by decide
  have hesc : '\\' ∉ ['\x7b', 'a', '/', 'b', ',', 'c', '\x7d', '/', '*'] := by decide
  exact ⟨by decide +kernel, hm, hset, hesc, e, he, expand_exhaustive hm hset hesc he⟩

/-- In strict order a pattern finds what is shown for all entries below its lead that it matches,
less those shown with a point in front where it admits none. -/
def FindsAll (tree : Tree) (root : Path) (pattern : Text) : Prop :=
  ∃ e, compile pattern = .ok e ∧
  ∃ found, expand tree root pattern = .ok found ∧ found.Pairwise Text.Precedes ∧
    ∀ f, f ∈ found ↔ ∃ inner names,
      tree.folderAt? (root.join ⟨(Glob.splitStatic pattern).1⟩).raw = some inner ∧
      names ≠ [] ∧ (inner.node? names).isSome ∧
      Listing.Admitted (fun depth n => !Glob.isDotted n.shown ||
        (Glob.reachOf (Glob.splitStatic pattern).2).admitsHidden depth) 1 names ∧
      f = candidate (Glob.splitStatic pattern).1 names ∧ e.matches f = true

/-- Two names that are shown alike. -/
def alike : Tree := (Tree.empty.setFile [[0xFE]] .empty).setFile [[0xFF]] .empty

/-- An entry can be out of reach, and a name that encodes no text is not hidden and may be shown
like another one. -/
theorem not_findsAll : ¬ FindsAll deep (hereBy 4091) ['*', '*'] ∧
    ¬ FindsAll garbled ⟨['.']⟩ ['*'] ∧ ¬ FindsAll alike ⟨['.']⟩ ['*'] := by
  refine ⟨?_, ?_, ?_⟩
  · rintro ⟨e, he, found, h, -, hmem⟩
    rw [expand_deep] at h
    cases h
    have hfolder : deep.folderAt? ((hereBy 4091).join ⟨[]⟩).raw = some deep.top :=
      folderAt?_hereBy (by decide) (by decide) rfl
    obtain ⟨e', he', hmatch⟩ : ∃ e', compile ['*', '*'] = .ok e' ∧
        e'.matches ['a', 'b', 'c', 'd', '/', 'x'] = true := ⟨_, rfl, by decide +kernel⟩
    cases he.symm.trans he'
    have hf := (hmem ['a', 'b', 'c', 'd', '/', 'x']).mpr
      ⟨deep.top, [Text.bytes ['a', 'b', 'c', 'd'], Text.bytes ['x']], hfolder, by decide, by decide,
        ⟨by decide, by decide, trivial⟩, by decide, hmatch⟩
    exact absurd hf (by decide)
  · rintro ⟨e, -, found, h, -, hmem⟩
    have hfound : expand garbled ⟨['.']⟩ ['*'] = .ok [['.', '\uFFFD']] := by decide +kernel
    rw [hfound] at h
    cases h
    obtain ⟨inner, names, hi, hne, hnode, ha, -⟩ := (hmem ['.', '\uFFFD']).mp (by decide)
    have hinner : garbled.folderAt? (Path.join ⟨['.']⟩ ⟨[]⟩).raw = some garbled.top := by rfl
    cases hinner.symm.trans hi
    obtain ⟨n, names, rfl⟩ := List.exists_cons_of_ne_nil hne
    have hn : [0x2E, 0xFF] = n := by
      by_contra hn
      rw [Listing.node?_cons] at hnode
      change Option.isSome (Option.bind (if [0x2E, 0xFF] = n then _ else _) _) = true at hnode
      rw [if_neg hn] at hnode
      cases hnode
    subst hn
    exact absurd ha.1 (by decide)
  · rintro ⟨e, -, found, h, hs, -⟩
    have hfound : expand alike ⟨['.']⟩ ['*'] = .ok [['\uFFFD'], ['\uFFFD']] :=
      expand_of_sorted (by decide) rfl rfl (by decide +kernel) (by decide)
    rw [hfound] at h
    cases h
    exact ((List.pairwise_cons.mp hs).1 ['\uFFFD'] (by decide)).2 rfl

end SourceMarks.Matcher
