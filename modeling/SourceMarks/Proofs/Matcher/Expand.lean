import SourceMarks.Matcher
import SourceMarks.Proofs.Glob.Lead
import SourceMarks.Proofs.Path.Raw
import SourceMarks.Proofs.Text.Order
import SourceMarks.Proofs.Tree.Lookup

/-!
What one pattern finds: paths in byte order, each of them shown for one entry of a walk. An entry
stands at its path unless that path is too long, or shows a name that encodes no text.
-/
namespace SourceMarks.Matcher
open Glob (joinLead_eq)
variable {tree : Tree} {root : Path} {folder : RawPath} {inner : Listing}
  {pattern lead rest f : Text}
  {found plain texts : List Text} {names names' : List RawText} {e : Glob.Expression}
  {reach : Glob.Reach} {depth : Nat}

/-- Whether a name is no hidden one, or the pattern admits hidden names at this depth. -/
def reveals (reach : Glob.Reach) (depth : Nat) (name : RawText) : Bool :=
  !Glob.isHidden name || reach.admitsHidden depth

/-- A walk goes where names are revealed, and no deeper than the pattern has segments, where that is
known. -/
theorem admitted_iff : Listing.Admitted reach.admits depth names ↔
    Listing.Admitted (fun d _ => reach.unbounded || d ≤ reach.segments.length) depth names ∧
      Listing.Admitted (reveals reach) depth names := Listing.admitted_and

theorem admitted_of_length
    (h : reach.unbounded = true ∨ depth + names.length ≤ reach.segments.length + 1) :
    Listing.Admitted (fun d _ => reach.unbounded || d ≤ reach.segments.length) depth names := by
  induction names generalizing depth with
  | nil => trivial
  | cons n names ih =>
    rw [List.length_cons] at h
    refine ⟨?_, ih (h.imp_right fun h => by omega)⟩
    have hdepth : reach.unbounded = true ∨ depth ≤ reach.segments.length :=
      h.imp_right fun h => by omega
    simpa using hdepth

theorem opened_join (hs : ∀ s ∈ plain, s ≠ [] ∧ '/' ∉ s) (hne : texts ≠ []) :
    Path.opened (Text.join ['/'] plain) ++ Text.join ['/'] texts =
      Text.join ['/'] (plain ++ texts) := by
  by_cases hn : plain = []
  · subst hn
    rfl
  · have hempty : Text.join ['/'] plain ≠ [] := fun h =>
      hn ((Text.join_eq_nil_iff fun s hm => (hs s hm).1).mp h)
    have ht : ¬ (Text.join ['/'] plain = [] ∨ (Text.join ['/'] plain).getLast? = some '/') :=
      not_or.mpr ⟨hempty, Glob.getLast?_join hs⟩
    rw [Path.opened, slash_char, if_neg ht, Text.join_append _ hn hne]

section Names
variable (hn : ∀ n ∈ names, IsName n)
include hn

theorem solid_shown : ∀ t ∈ names.map RawText.shown, t ≠ [] ∧ '/' ∉ t := by
  rw [List.forall_mem_map]
  exact fun n hm =>
    ⟨RawText.shown_ne_nil (hn n hm).solid.1, RawText.slash_not_mem_shown (hn n hm).solid.2⟩

/-- The path that is shown tells the names apart as far as these are shown. -/
theorem candidate_inj (hn' : ∀ n ∈ names', IsName n) :
    candidate lead names = candidate lead names' ↔
      names.map RawText.shown = names'.map RawText.shown := by
  constructor
  · intro h
    rw [candidate, candidate, joinLead_eq, joinLead_eq] at h
    exact Path.ofParts_inj (solid_shown hn) (solid_shown hn')
      (congrArg Path.mk (List.append_cancel_left h))
  · intro h
    rw [candidate, candidate, h]

end Names

/-- The path shown for names in UTF-8 is theirs. -/
theorem raw_candidate (root : Path) (lead : Text) (hs : ∀ t ∈ texts, t ≠ [] ∧ '/' ∉ t) :
    (root.join ⟨candidate lead (texts.map Text.bytes)⟩).raw =
      (root.join ⟨lead⟩).raw.join (.ofParts (texts.map Text.bytes)) := by
  have hrel : (Path.ofParts texts).isAbsolute = false :=
    Path.isAbsolute_ofParts (fun t ht => (hs t ht).2) fun h => (hs [] (List.mem_of_head? h)).1 rfl
  have hlead : Path.mk (candidate lead (texts.map Text.bytes)) =
      Path.join ⟨lead⟩ (.ofParts texts) := by
    rw [candidate, joinLead_eq, RawText.shown_map_bytes, Path.join_of_relative hrel]
    rfl
  rw [hlead, ← Path.join_join hrel, Path.raw_join, Path.raw_ofParts]

/-- How a pattern is expanded: without wildcards, below a missing folder, or by a walk. -/
theorem expand_cases (h : expand tree root pattern = .ok found) :
    Glob.hasMagic pattern = false ∧
      found = (if tree.isThere (root.join ⟨pattern⟩).raw then [pattern] else []) ∨
    Glob.hasMagic pattern = true ∧
      (tree.folderAt? (root.join ⟨(Glob.splitStatic pattern).1⟩).raw = none ∧ found = [] ∨
        ∃ inner e, tree.folderAt? (root.join ⟨(Glob.splitStatic pattern).1⟩).raw = some inner ∧
          compile pattern = .ok e ∧
          found = Text.sort ((candidates inner (root.join ⟨(Glob.splitStatic pattern).1⟩).raw
            (Glob.splitStatic pattern).1 (Glob.splitStatic pattern).2).filter e.matches)) := by
  rw [expand] at h
  split at h
  · next hm =>
    cases h
    exact Or.inl ⟨by simpa using hm, rfl⟩
  · next hm =>
    refine Or.inr ⟨by simpa using hm, ?_⟩
    dsimp only at h
    split at h
    · next hf =>
      cases h
      exact Or.inl ⟨hf, rfl⟩
    · next inner hf =>
      obtain ⟨e, he, h⟩ := bind_eq_ok_iff.mp h
      cases h
      exact Or.inr ⟨inner, e, hf, he, rfl⟩

/-- What the walk of a pattern with wildcards meets need not be sorted if it is in order. -/
theorem expand_of_sorted (hm : Glob.hasMagic pattern = true)
    (hf : tree.folderAt? (root.join ⟨(Glob.splitStatic pattern).1⟩).raw = some inner)
    (he : compile pattern = .ok e)
    (h : (candidates inner (root.join ⟨(Glob.splitStatic pattern).1⟩).raw
      (Glob.splitStatic pattern).1 (Glob.splitStatic pattern).2).filter e.matches = found)
    (hs : Text.Sorted found) : expand tree root pattern = .ok found := by
  rw [expand, hm, Bool.not_true, if_neg Bool.false_ne_true]
  dsimp only
  rw [hf, he]
  change Except.ok (Text.sort _) = _
  rw [h, Text.sort_of_sorted hs]

theorem proper_of_folderAt? {p : RawPath} (h : tree.folderAt? p = some inner) : inner.Proper := by
  obtain ⟨q, -, hg⟩ := Tree.folderAt?_eq_some_iff.mp h
  exact Listing.proper_of_get? tree.proper hg

theorem textTrouble?_of_folderAt? {p : RawPath} (h : tree.folderAt? p = some inner) :
    Tree.textTrouble? p = none := by
  obtain ⟨q, hl, -⟩ := Tree.folderAt?_eq_some_iff.mp h
  exact (Tree.leads_iff.mp hl).1

/-- What a pattern with wildcards looks at: the entries below its lead that can be reached and that
it admits, if the path that is shown for them matches. -/
structure Meets (tree : Tree) (root : Path) (pattern : Text) (e : Glob.Expression)
    (names : List RawText) : Prop where
  stands : ∃ inner, tree.folderAt? (root.join ⟨(Glob.splitStatic pattern).1⟩).raw = some inner ∧
    names ≠ [] ∧ (inner.node? names).isSome
  /-- The folder of the entry has a path that can be looked up. -/
  opens : Tree.textTrouble?
    ((root.join ⟨(Glob.splitStatic pattern).1⟩).raw.under names.dropLast) = none
  fits : e.matches (candidate (Glob.splitStatic pattern).1 names) = true

theorem Meets.isName (h : Meets tree root pattern e names) : ∀ n ∈ names, IsName n := by
  obtain ⟨inner, hi, -, hnode⟩ := h.stands
  exact Listing.isName_of_node? (proper_of_folderAt? hi) hnode

/-- What a pattern with wildcards finds, in byte order: what is shown for the entries that it meets
and its walk admits, each of which the walk meets once. -/
theorem exists_entries (hm : Glob.hasMagic pattern = true) (he : compile pattern = .ok e)
    (h : expand tree root pattern = .ok found) :
    ∃ entries : List (List RawText), entries.Nodup ∧
      found.Perm (entries.map (candidate (Glob.splitStatic pattern).1)) ∧
      ∀ names, names ∈ entries ↔ Meets tree root pattern e names ∧
        Listing.Admitted (Glob.reachOf (Glob.splitStatic pattern).2).admits 1 names := by
  obtain ⟨hm', -⟩ | ⟨-, ⟨hf, rfl⟩ | ⟨inner, e', hf, he', rfl⟩⟩ := expand_cases h
  · rw [hm] at hm'
    cases hm'
  · refine ⟨[], List.nodup_nil, List.Perm.refl [], fun names => ?_⟩
    simp only [List.not_mem_nil, false_iff]
    rintro ⟨⟨⟨inner, hi, -⟩, -, -⟩, -⟩
    rw [hf] at hi
    cases hi
  · rw [he] at he'
    cases he'
    have hl := proper_of_folderAt? hf
    refine ⟨(inner.walk (Glob.reachOf (Glob.splitStatic pattern).2).admits 1
      (root.join ⟨(Glob.splitStatic pattern).1⟩).raw).filter
        fun names => e.matches (candidate (Glob.splitStatic pattern).1 names),
      (Listing.nodup_walk hl).filter _, ?_, fun names => ?_⟩
    · refine (Text.sort_perm _).trans ?_
      rw [candidates, List.filter_map]
      rfl
    · rw [List.mem_filter, Listing.mem_walk hl]
      constructor
      · rintro ⟨⟨hne, hnode, ha, ho⟩, hmatch⟩
        have hsolid := fun n hm => (Listing.isName_of_node? hl hnode n hm).solid
        exact ⟨⟨⟨inner, hf, hne, hnode⟩,
          (Listing.opens_iff (textTrouble?_of_folderAt? hf) hsolid).mp ho, hmatch⟩, ha⟩
      · rintro ⟨⟨⟨inner', hi, hne, hnode⟩, ho, hmatch⟩, ha⟩
        rw [hf] at hi
        cases hi
        have hsolid := fun n hm => (Listing.isName_of_node? hl hnode n hm).solid
        exact ⟨⟨hne, hnode, ha, (Listing.opens_iff (textTrouble?_of_folderAt? hf) hsolid).mpr ho⟩,
          hmatch⟩

theorem mem_expand (hm : Glob.hasMagic pattern = true) (he : compile pattern = .ok e)
    (h : expand tree root pattern = .ok found) : f ∈ found ↔
      ∃ names, Meets tree root pattern e names ∧
        Listing.Admitted (Glob.reachOf (Glob.splitStatic pattern).2).admits 1 names ∧
        f = candidate (Glob.splitStatic pattern).1 names := by
  obtain ⟨entries, -, hperm, hmem⟩ := exists_entries hm he h
  rw [hperm.mem_iff, List.mem_map]
  simp only [hmem, and_assoc, eq_comm]

theorem sorted_expand (h : expand tree root pattern = .ok found) : Text.Sorted found := by
  obtain ⟨-, rfl⟩ | ⟨-, ⟨-, rfl⟩ | ⟨inner, e, -, -, rfl⟩⟩ := expand_cases h
  · split <;> simp
  · exact List.Pairwise.nil
  · exact Text.sorted_sort _

/-- Where all names are in UTF-8, no two entries are shown alike. -/
theorem nodup_candidate {entries : List (List RawText)} (hn : entries.Nodup)
    (hname : ∀ names ∈ entries, ∀ n ∈ names, IsName n)
    (htext : ∀ names ∈ entries, ∀ n ∈ names, n.toText?.isSome) :
    (entries.map (candidate lead)).Nodup := by
  refine List.Nodup.map_on (fun names hm names' hm' h => ?_) hn
  have hshown := (candidate_inj (hname names hm) (hname names' hm')).mp h
  obtain ⟨ts, rfl⟩ := RawText.exists_texts (htext names hm)
  obtain ⟨ts', rfl⟩ := RawText.exists_texts (htext names' hm')
  rw [RawText.shown_map_bytes, RawText.shown_map_bytes] at hshown
  rw [hshown]

/-- At the path of an entry with names in UTF-8 something stands, if the path can be looked up. -/
theorem isThere_candidate (hf : tree.folderAt? (root.join ⟨lead⟩).raw = some inner)
    (hne : names ≠ []) (hnode : (inner.node? names).isSome)
    (htext : ∀ n ∈ names, n.toText?.isSome)
    (hlength : (root.join ⟨candidate lead names⟩).raw.text.length < 4096) :
    tree.isThere (root.join ⟨candidate lead names⟩).raw := by
  obtain ⟨q, hq, hg⟩ := Tree.folderAt?_eq_some_iff.mp hf
  have hsome : (tree.node? (q ++ names)).isSome := Tree.node?_append hg names ▸ hnode
  have hn := Listing.isName_of_node? (proper_of_folderAt? hf) hnode
  obtain ⟨texts, rfl⟩ := RawText.exists_texts htext
  have hs := solid_shown hn
  rw [RawText.shown_map_bytes] at hs
  have hnames := fun n hm => (hn n hm).solid
  rw [raw_candidate root lead hs] at hlength ⊢
  rw [Tree.isThere_join_iff (fun n hm => ⟨Tree.enters_of_isName (hn n hm), (hnames n hm).2⟩) hne]
  have hzero := (Tree.textTrouble?_eq_none_iff.mp (textTrouble?_of_folderAt? hf)).1
  exact ⟨(Tree.textTrouble?_join_iff hzero hn hne).mpr hlength, hne, q,
    (Tree.leads_iff_reaches.mp hq).2, hsome⟩

section LongPath
open PathSymbol
variable {count : Nat} {name : Text}

/-- The working folder, with separators behind it. -/
def hereBy (count : Nat) : Path := ⟨'.' :: List.replicate count '/'⟩

theorem raw_hereBy (count : Nat) : (hereBy count).raw = ⟨dot :: List.replicate count slash⟩ := by
  have h : Text.bytes (List.replicate count '/') = List.replicate count slash := by
    induction count with
    | zero => rfl
    | succ count ih =>
      rw [List.replicate_succ, Text.bytes_cons, ih]
      rfl
  rw [hereBy, Path.raw, Text.bytes_cons, h]
  rfl

/-- However many separators there are, the path leads to the working folder if it can be looked
up. -/
theorem leads_hereBy (hc : count < 4095) (h : tree.node? tree.home = some .folder) :
    tree.Leads (hereBy count).raw tree.home := by
  have hrel : (hereBy count).raw.isAbsolute = false := Path.isAbsolute_raw _
  have hsplit : ∀ n, Text.split (slash : UInt8) (List.replicate n slash) =
      List.replicate (n + 1) [] := by
    intro n
    induction n with
    | zero => rfl
    | succ n ih => rw [List.replicate_succ, Text.split, if_pos rfl, ih, ← List.replicate_succ]
  have hidle : ∀ x ∈ (hereBy count).raw.bodyParts, Path.Idle x := by
    rw [Path.bodyParts_of_relative hrel, Path.parts, raw_hereBy, Text.split, if_neg (by decide),
      hsplit]
    exact List.forall_mem_cons.mpr ⟨Or.inr rfl, fun x hx => Or.inl (List.eq_of_mem_replicate hx)⟩
  have htext : Tree.textTrouble? (hereBy count).raw = none := by
    have hzero : (0 : UInt8) ≠ dot ∧ (0 : UInt8) ≠ slash := by decide
    rw [Tree.textTrouble?_eq_none_iff, raw_hereBy]
    refine ⟨by simp [hzero], List.cons_ne_nil _ _, ?_⟩
    rw [List.length_cons, List.length_replicate]
    omega
  refine Tree.leads_iff_reaches.mpr ⟨htext, ?_⟩
  rw [Tree.Reaches, Tree.start, hrel]
  have hnone : tree.follow tree.home [] = .ok tree.home := rfl
  exact (Tree.follow_idle_iff hidle h).mpr hnone

theorem join_hereBy (hc : 0 < count) (hn : name.head? ≠ some '/') :
    (hereBy count).join ⟨name⟩ = ⟨(hereBy count).text ++ name⟩ := by
  have hl : (hereBy count).text.getLast? = some slash := by
    simp [hereBy, List.getLast?_cons, List.getLast?_replicate, Nat.ne_of_gt hc]
  rw [Path.join_of_relative (decide_eq_false hn), Path.opened, if_pos (Or.inr hl)]

/-- With a name behind it, the path cannot be looked up if there are too many separators. -/
theorem textTrouble?_join_hereBy (hc : 0 < count) (hn : name.head? ≠ some '/')
    (hl : 4096 ≤ count + 1 + name.bytes.length) :
    Tree.textTrouble? ((hereBy count).join ⟨name⟩).raw ≠ none := by
  have hb : (hereBy count).text.bytes = dot :: List.replicate count slash :=
    congrArg Path.text (raw_hereBy count)
  intro h
  have hlength := (Tree.textTrouble?_eq_none_iff.mp h).2.2
  rw [join_hereBy hc hn, Path.raw, Text.bytes_append, List.length_append, hb,
    List.length_cons, List.length_replicate] at hlength
  omega

theorem folderAt?_hereBy (hc : 0 < count) (hl : count < 4095) (h : tree.home = []) :
    tree.folderAt? ((hereBy count).join ⟨[]⟩).raw = some tree.top := by
  have hleads : tree.Leads (hereBy count).raw [] := h ▸ leads_hereBy hl (h ▸ rfl)
  rw [join_hereBy hc (by decide), List.append_nil]
  exact Tree.folderAt?_of_leads hleads rfl

/-- A file in a folder whose name has four bytes. -/
def deep : Tree := (Tree.empty.setFolder [Text.bytes ['a', 'b', 'c', 'd']]).setFile
  [Text.bytes ['a', 'b', 'c', 'd'], Text.bytes ['x']] .empty

/-- A folder whose path gets too long is found, but not what is in it. -/
theorem expand_deep : expand deep (hereBy 4091) ['*', '*'] = .ok [['a', 'b', 'c', 'd']] := by
  have hfolder : deep.folderAt? ((hereBy 4091).join ⟨[]⟩).raw = some deep.top :=
    folderAt?_hereBy (by decide) (by decide) rfl
  have hlong : Tree.textTrouble? (((hereBy 4091).join ⟨[]⟩).raw.join
      ⟨Text.bytes ['a', 'b', 'c', 'd']⟩) ≠ none := by
    have h : Tree.textTrouble? ((hereBy 4091).join ⟨['a', 'b', 'c', 'd']⟩).raw ≠ none :=
      textTrouble?_join_hereBy (by decide) (by decide) (by decide)
    rw [Path.raw_join] at h
    rwa [join_hereBy (by decide) (by decide), List.append_nil]
  -- From here on nothing depends on how the root is written.
  generalize hereBy 4091 = root at hfolder hlong ⊢
  have hsplit : Glob.splitStatic ['*', '*'] = ([], ['*', '*']) := by decide
  have hwalk : deep.top.walk (Glob.reachOf ['*', '*']).admits 1 (root.join ⟨[]⟩).raw =
      [[Text.bytes ['a', 'b', 'c', 'd']]] := by
    have hstop : (Tree.textTrouble? ((root.join ⟨[]⟩).raw.join
        ⟨Text.bytes ['a', 'b', 'c', 'd']⟩)).isNone = false :=
      Option.isNone_eq_false_iff.mpr (Option.isSome_iff_ne_none.mpr hlong)
    have hadmits : (Glob.reachOf ['*', '*']).admits 1 (Text.bytes ['a', 'b', 'c', 'd']) = true := by
      decide +kernel
    change Listing.walk _ 1 _ (.folder (Text.bytes ['a', 'b', 'c', 'd']) _ .nil) = _
    rw [Listing.walk, hstop, hadmits]
    rfl
  refine expand_of_sorted (by decide) hfolder rfl ?_ (by decide)
  rw [hsplit, candidates, hwalk]
  decide +kernel

end LongPath

/-- A file whose name encodes no text, with a point in front. -/
def garbled : Tree := Tree.empty.setFile [[0x2E, 0xFF]] .empty

end SourceMarks.Matcher
