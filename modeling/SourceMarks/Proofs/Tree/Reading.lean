import SourceMarks.Proofs.Tree.Writing

/-!
Paths of files. The last part of such a path names the file, and the parts in front lead to its
folder, so the file can be written again where it is, without anything else.
-/
namespace SourceMarks.Tree
open PathSymbol
variable {t : Tree} {p f : RawPath} {n part : RawText} {b bytes : ByteArray} {e : Entry}
  {q trail next init idle parts : List RawText}

theorem text_ne_nil_of_leads (h : t.Leads p q) : p.text ≠ [] :=
  (textTrouble?_eq_none_iff.mp (leads_iff.mp h).1).2.1

theorem entry_eq_ok_iff : t.entry p = .ok e ↔ ∃ q, t.Leads p q ∧ t.top.get? q = some e := by
  rw [entry, bind_eq_ok_iff]
  refine exists_congr fun q => and_congr_right fun _ => ?_
  cases t.top.get? q <;> simp

/-- Only a name leads to a file. -/
theorem step_file (h : t.step trail part = .ok q) (hq : t.node? q = some (.file b)) :
    Enters part ∧ q = trail ++ [part] := by
  by_cases he : Enters part
  · exact ⟨he, (step_enters he h).1⟩
  · -- Any other part leads to a folder.
    have hf := folder_of_step h
    rw [step_eq, hf] at h
    dsimp only at h
    split at h
    · cases h
      simp [hf] at hq
    · next hidle =>
      have hup : part = [dot, dot] := by
        by_contra hup
        exact he (by simpa [Enters, hup, not_or] using hidle)
      rw [if_pos hup] at h
      cases h
      by_cases hn : trail = []
      · subst hn
        cases hq
      · simp [node?_dropLast (Option.isSome_of_eq_some hf) hn] at hq

/-- The path of a file is a folder's parts and the name of the file. -/
theorem exists_name (h : t.Leads p q) (hq : t.node? q = some (.file b)) :
    ∃ init n trail, p.bodyParts = init ++ [n] ∧ IsName n ∧ q = trail ++ [n] ∧
      t.follow (t.start p).1 init = .ok trail := by
  have hne := Path.bodyParts_ne_nil p
  have hf := (leads_iff.mp h).2
  change t.follow (t.start p).1 p.bodyParts = _ at hf
  rw [← List.dropLast_concat_getLast hne] at hf
  obtain ⟨trail, htrail, hs⟩ := follow_concat.mp hf
  obtain ⟨-, hlast⟩ := step_file hs hq
  refine ⟨_, _, trail, (List.dropLast_concat_getLast hne).symm, ?_, hlast, htrail⟩
  exact isName_of_node? (Option.isSome_of_eq_some hq) _ (by simp [hlast])

theorem step_idle (hi : Path.Idle part) (h : t.step trail part = .ok next) : next = trail := by
  have hf := folder_of_step h
  rw [step_eq, hf] at h
  obtain rfl | rfl := hi <;> cases h <;> rfl

theorem follow_idle (hi : ∀ x ∈ idle, Path.Idle x) (h : t.follow trail (parts ++ idle) = .ok next) :
    t.follow trail parts = .ok next := by
  rw [follow_append, bind_eq_ok_iff] at h
  obtain ⟨mid, hmid, h⟩ := h
  rw [hmid]
  clear hmid
  induction idle with
  | nil => exact h
  | cons x idle ih =>
    rw [List.forall_mem_cons] at hi
    rw [follow] at h
    split at h
    · next hs =>
      rw [step_idle hi.1 hs] at h
      exact ih hi.2 h
    · cases h

theorem textTrouble?_front (hf : f.text <+: p.text) (hn : f.text ≠ [])
    (hp : textTrouble? p = none) : textTrouble? f = none := by
  obtain ⟨hz, -, hl⟩ := textTrouble?_eq_none_iff.mp hp
  obtain ⟨r, hr⟩ := hf
  refine textTrouble?_eq_none_iff.mpr ⟨fun h => hz (hr ▸ List.mem_append_left r h), hn, ?_⟩
  rw [← hr, List.length_append] at hl
  omega

theorem isFolder_iff_leads (h : t.Leads p q) : t.isFolder p ↔ t.node? q = some .folder := by
  rw [Leads] at h
  simp only [isFolder, entry, h, bind, Except.bind, node?, Listing.node?]
  cases t.top.get? q with
  | none => simp
  | some e => cases e <;> simp [Entry.node]

/-- Without its last part and idle ones before it, a path leads to where the parts in front do,
unless nothing is left of it. -/
theorem leads_withBody (htext : textTrouble? p = none) (hp : p.bodyParts = init ++ [n])
    (hinit : t.follow (t.start p).1 init = .ok trail) :
    (p.withBody (Path.dropIdleEnd (!p.isAbsolute) init)).components = [] ∨
      t.Leads (p.withBody (Path.dropIdleEnd (!p.isAbsolute) init)) trail := by
  obtain ⟨idle, hi, hidle⟩ := Path.dropIdleEnd_append (!p.isAbsolute) init
  generalize Path.dropIdleEnd (!p.isAbsolute) init = kept at hi
  have hs : ∀ x ∈ kept, slash ∉ x := fun x hx =>
    Path.slash_not_mem_of_mem_parts
      (Path.mem_parts_of_mem_bodyParts (p := p) (by simp [hp, hi, hx]))
  have hh : p.isAbsolute = false → kept.head? ≠ some [] := by
    intro ha
    have hparts : p.parts = kept ++ (idle ++ [n]) := by
      rw [← Path.bodyParts_of_relative ha, hp, hi, List.append_assoc]
    exact Path.head?_of_parts ha (textTrouble?_eq_none_iff.mp htext).2.1 hparts
  have hprefix : (p.withBody kept).text <+: p.text :=
    Path.prefix_text_withBody (by rw [hp, hi, List.append_assoc])
  have habs := Path.isAbsolute_withBody hs hh
  have hstart : (t.start (p.withBody kept)).1 = (t.start p).1 := by rw [start, start, habs]
  rw [hi] at hinit
  have hkept := follow_idle hidle hinit
  by_cases hk : kept = []
  · subst hk
    cases ha : p.isAbsolute with
    | false =>
      rw [Path.withBody_of_relative ha]
      exact Or.inl Path.components_nil
    | true =>
      -- Only the root is left.
      rw [Path.withBody_of_absolute ha] at hprefix ⊢
      refine Or.inr (leads_iff.mpr ⟨textTrouble?_front hprefix (by simp) htext, ?_⟩)
      rw [start, if_pos ha] at hkept
      cases hkept
      rfl
  · have hbody := Path.bodyParts_withBody hs hh hk
    have hne : (p.withBody kept).text ≠ [] := by
      intro he
      have hrel : (p.withBody kept).isAbsolute = false := by simp [Path.isAbsolute, he]
      rw [Path.bodyParts_of_relative hrel, Path.parts, he] at hbody
      exact hh (habs ▸ hrel) (by rw [← hbody]; rfl)
    refine Or.inr (leads_iff.mpr ⟨textTrouble?_front hprefix hne htext, ?_⟩)
    change t.follow _ (p.withBody kept).bodyParts = _
    rw [hstart, hbody, hkept]

/-- The parent of a file is a folder, or there is no parent but the working folder. -/
theorem isFolder_parent (h : t.Leads p q) (hq : t.node? q = some (.file b))
    (hf : p.parent? = some f) : f.components = [] ∨ t.isFolder f := by
  obtain ⟨init, n, trail, hp, hn, rfl, hinit⟩ := exists_name h hq
  rw [Path.parent?_of_bodyParts hp hn.not_idle] at hf
  cases hf
  refine (leads_withBody (leads_iff.mp h).1 hp hinit).imp_right fun hleads => ?_
  have htrail := node?_dropLast (Option.isSome_of_eq_some hq) (by simp)
  rw [List.dropLast_concat] at htrail
  exact (isFolder_iff_leads hleads).mpr htrail

theorem exists_leads_of_isFolder (h : t.isFolder f) : ∃ q, t.Leads f q := by
  rw [isFolder] at h
  split at h
  · next inner he =>
    obtain ⟨q, hl, -⟩ := entry_eq_ok_iff.mp he
    exact ⟨q, hl⟩
  · cases h

theorem ensureFolder_of_isFolder (h : t.isFolder f) : t.ensureFolder f = .ok t := by
  obtain ⟨q, hq⟩ := exists_leads_of_isFolder h
  rw [ensureFolder]
  split
  · next made hm => exact absurd hq ((makeFolder_cases hm).1 q)
  · rw [if_pos h]

theorem makeFolders_parent (h : t.Leads p q) (hq : t.node? q = some (.file b))
    (hf : p.parent? = some f) : t.makeFolders f = .ok t := by
  rw [makeFolders, makeFoldersFrom]
  split
  · rfl
  · next hc =>
    have hfolder := (isFolder_parent h hq hf).resolve_left (by simpa using hc)
    rw [ensureFolder_of_isFolder hfolder]

theorem get?_of_node? (h : t.node? q = some (.file b)) : t.top.get? q = some (.file b) := by
  rw [node?, Listing.node?] at h
  obtain ⟨e, he, h⟩ := Option.map_eq_some_iff.mp h
  rw [he]
  cases e <;> cases h
  rfl

/-- A file can be written again. -/
theorem write_file (h : t.Leads p q) (hq : t.node? q = some (.file b)) (bytes : ByteArray) :
    t.write p bytes = .ok (t.setFile q bytes) := by
  obtain ⟨init, n, trail, hp, hn, rfl, hinit⟩ := exists_name h hq
  have htext := (leads_iff.mp h).1
  have hslash : p.text.getLast? ≠ some slash := by
    intro hl
    have hlast := (Path.getLast?_bodyParts (text_ne_nil_of_leads h)).mpr hl
    rw [hp, List.getLast?_concat, Option.some_inj] at hlast
    exact hn.1 hlast
  have hf := node?_dropLast (Option.isSome_of_eq_some hq) (by simp)
  rw [List.dropLast_concat] at hf
  have hidle : t.step trail [] = .ok trail := by
    rw [step_eq, hf]
    rfl
  have hslot : t.slot p = .ok (trail, n) := by
    have hcut : cutLast (t.start p).2 = (init, n) := by
      change cutLast p.bodyParts = _
      rw [hp, cutLast_concat hn.1]
    simp [slot, htext, hcut, hinit, hidle, bind, Except.bind]
  have hstep := step_name hn hf (Option.isSome_of_eq_some hq)
  rw [write, hslot]
  simp only [bind, Except.bind, hslash, hstep, hn.1, hn.2.1, hn.2.2.1, decide_false, Bool.or_self,
    Bool.false_eq_true, if_false, get?_of_node? hq]

theorem node?_setFile_file (hq : t.node? q = some (.file b)) (bytes : ByteArray)
    (r : List RawText) :
    (t.setFile q bytes).node? r = if r = q then some (.file bytes) else t.node? r := by
  have hne : q ≠ [] := by
    rintro rfl
    cases hq
  have hs := Option.isSome_of_eq_some hq
  have hname := isName_of_node? hs _ (List.getLast_mem hne)
  have hparent := node?_dropLast hs hne
  rw [← List.dropLast_concat_getLast hne] at hq ⊢
  exact node?_setFile hparent hname (by simp [hq]) bytes r

theorem grows_setFile_file (hq : t.node? q = some (.file b)) (bytes : ByteArray) :
    Grows t (t.setFile q bytes) := by
  refine ⟨home_setFile t q bytes, fun r n hn => ?_⟩
  rw [node?_setFile_file hq]
  by_cases h : r = q
  · subst h
    rw [hq] at hn
    cases hn
    exact ⟨.file bytes, if_pos rfl, by simp⟩
  · exact ⟨n, by rw [if_neg h, hn], Iff.rfl⟩

theorem read_eq_ok_iff : t.read p = .ok b ↔ ∃ q, t.Leads p q ∧ t.node? q = some (.file b) := by
  rw [read, bind_eq_ok_iff]
  constructor
  · rintro ⟨e, he, h⟩
    obtain ⟨q, hl, hg⟩ := entry_eq_ok_iff.mp he
    cases e with
    | folder inner => cases h
    | file b' =>
      cases h
      exact ⟨q, hl, node?_of_get? hg⟩
  · rintro ⟨q, hl, hq⟩
    exact ⟨.file b, entry_eq_ok_iff.mpr ⟨q, hl, get?_of_node? hq⟩, rfl⟩

end SourceMarks.Tree
