import SourceMarks.Proofs.Path.Parts
import SourceMarks.Proofs.Tree.Steps
import SourceMarks.Tree.Write

/-!
What making folders and writing a file change. Main statements: folders come only where nothing was,
and a file that was written is the only change, at the trail where its path leads from then on.
-/
namespace SourceMarks.Tree
open PathSymbol
variable {t t' t'' : Tree} {p : RawPath} {name : RawText} {bytes : ByteArray}
  {trail q parts parents : List RawText}

/-- The path leads along a trail. -/
def Leads (t : Tree) (p : RawPath) (q : List RawText) : Prop := t.locate p = .ok q

theorem leads_iff : t.Leads p q ↔
    textTrouble? p = none ∧ t.follow (t.start p).1 (t.start p).2 = .ok q := by
  rw [Leads, locate]
  cases textTrouble? p <;> simp

theorem Leads.unique {q' : List RawText} (h : t.Leads p q) (h' : t.Leads p q') : q = q' := by
  rw [Leads, h] at h'
  cases h'
  rfl

/-- Something stands where a path leads. -/
theorem Leads.isSome (h : t.Leads p q) : (t.node? q).isSome :=
  isSome_follow (fun hn => absurd hn (Path.bodyParts_ne_nil p)) (leads_iff.mp h).2

theorem Grows.leads (hg : Grows t t') (h : t.Leads p q) : t'.Leads p q := by
  rw [leads_iff] at h ⊢
  rw [hg.start]
  exact ⟨h.1, hg.follow h.2⟩

/-- The other tree has more folders, where nothing was, and is the same elsewhere. -/
structure AddsFolders (t t' : Tree) : Prop where
  home : t'.home = t.home
  folders : ∀ q, t'.node? q = t.node? q ∨ t.node? q = none ∧ t'.node? q = some .folder

theorem AddsFolders.refl (t : Tree) : AddsFolders t t := ⟨rfl, fun _ => Or.inl rfl⟩

theorem AddsFolders.trans (h : AddsFolders t t') (h' : AddsFolders t' t'') :
    AddsFolders t t'' := by
  refine ⟨h'.home.trans h.home, fun q => ?_⟩
  cases h'.folders q with
  | inl he =>
    rw [he]
    exact h.folders q
  | inr hf =>
    cases h.folders q with
    | inl he => exact Or.inr ⟨he ▸ hf.1, hf.2⟩
    | inr hf' => simp [hf.1] at hf'

theorem AddsFolders.grows (h : AddsFolders t t') : Grows t t' := by
  refine ⟨h.home, fun q n hn => ?_⟩
  cases h.folders q with
  | inl he => exact ⟨n, he ▸ hn, Iff.rfl⟩
  | inr hf => simp [hf.1] at hn

theorem addsFolders_setFolder (hp : t.node? trail = some .folder) (hn : IsName name)
    (hf : t.node? (trail ++ [name]) = none) : AddsFolders t (t.setFolder (trail ++ [name])) := by
  refine ⟨home_setFolder t _, fun q => ?_⟩
  rw [node?_setFolder hp hn hf]
  split
  · next h => exact Or.inr ⟨h ▸ hf, rfl⟩
  · exact Or.inl rfl

theorem grows_setFile (hp : t.node? trail = some .folder) (hn : IsName name)
    (hf : t.node? (trail ++ [name]) ≠ some .folder) (bytes : ByteArray) :
    Grows t (t.setFile (trail ++ [name]) bytes) := by
  refine ⟨home_setFile t _ bytes, fun q n hq => ?_⟩
  rw [node?_setFile hp hn hf]
  by_cases h : q = trail ++ [name]
  · subst h
    refine ⟨.file bytes, if_pos rfl, ?_⟩
    have hne : n ≠ .folder := fun e => hf (e ▸ hq)
    simp [hne]
  · exact ⟨n, by rw [if_neg h, hq], Iff.rfl⟩

/-- Only empty parts stand behind the last name. -/
theorem cutLast_eq (h : cutLast parts = (parents, name)) (hn : name ≠ []) :
    ∃ idle, parts = parents ++ name :: idle ∧ ∀ x ∈ idle, x = [] := by
  have hs : parts.reverse.takeWhile (· = []) ++ parts.reverse.dropWhile (· = []) = parts.reverse :=
    List.takeWhile_append_dropWhile
  have hr := congrArg List.reverse hs
  rw [List.reverse_append, List.reverse_reverse] at hr
  rw [cutLast] at h
  generalize (parts.reverse.dropWhile (· = [])).reverse = kept at h hr
  cases h
  cases hk : kept.getLast? with
  | none => simp [hk] at hn
  | some n =>
    obtain ⟨init, rfl⟩ := List.getLast?_eq_some_iff.mp hk
    refine ⟨(parts.reverse.takeWhile (· = [])).reverse, hr.symm.trans (by simp), ?_⟩
    intro x hx
    have hall : ∀ y ∈ parts.reverse.takeWhile (· = []), decide (y = []) = true :=
      List.all_eq_true.mp List.all_takeWhile
    exact of_decide_eq_true (hall x (List.mem_reverse.mp hx))

theorem cutLast_concat (hn : name ≠ []) (init : List RawText) :
    cutLast (init ++ [name]) = (init, name) := by
  simp [cutLast, hn]

theorem textTrouble?_eq_none_iff : textTrouble? p = none ↔
    0 ∉ p.text ∧ p.text ≠ [] ∧ p.text.length < 4096 := by
  unfold textTrouble?
  by_cases h0 : 0 ∈ p.text
  · simp [h0]
  · by_cases hn : p.text = []
    · simp [hn]
    · by_cases hl : 4096 ≤ p.text.length
      · simp [h0, hn, hl]
      · simp [h0, hn, hl]
        omega

theorem isName_of_mem_bodyParts (ht : textTrouble? p = none) (h : name ∈ p.bodyParts)
    (he : Enters name) (hl : name.length ≤ 255) : IsName name := by
  have hm := Path.mem_parts_of_mem_bodyParts h
  have hz : 0 ∉ name := fun hz =>
    (textTrouble?_eq_none_iff.mp ht).1 (Text.subset_of_mem_split hm hz)
  exact ⟨he.1, he.2.1, he.2.2, Path.slash_not_mem_of_mem_parts hm, hz, hl⟩

/-- The name that a path ends in, and the folder that this name stands in. -/
theorem slot_eq_ok (h : t.slot p = .ok (trail, name)) :
    textTrouble? p = none ∧ t.node? trail = some .folder ∧
      ∃ parents, cutLast p.bodyParts = (parents, name) ∧
        t.follow (t.start p).1 parents = .ok trail := by
  rw [slot] at h
  split at h
  · cases h
  · next htext =>
    obtain ⟨trail', hfollow, h⟩ := bind_eq_ok_iff.mp h
    obtain ⟨next, hstep, h⟩ := bind_eq_ok_iff.mp h
    cases h
    exact ⟨htext, folder_of_step hstep, _, rfl, hfollow⟩

section MakeFolders

/-- A folder is made only where its path does not lead yet. -/
theorem makeFolder_cases (h : t.makeFolder p = .ok t') :
    (∀ q, ¬ t.Leads p q) ∧
      ∃ trail name, t.node? trail = some .folder ∧ IsName name ∧
        t.node? (trail ++ [name]) = none ∧ t' = t.setFolder (trail ++ [name]) := by
  obtain ⟨⟨trail, name⟩, hslot, h⟩ := bind_eq_ok_iff.mp h
  obtain ⟨htext, hf, parents, hcut, hfollow⟩ := slot_eq_ok hslot
  dsimp only at h
  split at h
  · cases h
  · next he =>
    have he : Enters name := by simpa [Enters, and_assoc] using he
    obtain ⟨idle, hparts, -⟩ := cutLast_eq hcut he.1
    split at h
    · cases h
    · next hm =>
      obtain ⟨hlen, hnone⟩ := step_missing he hf hm
      have hn := isName_of_mem_bodyParts htext (by simp [hparts]) he hlen
      cases h
      refine ⟨fun q hq => ?_, trail, name, hf, hn, hnone, rfl⟩
      have hq := (leads_iff.mp hq).2
      change t.follow (t.start p).1 p.bodyParts = _ at hq
      rw [hparts, follow_append, hfollow] at hq
      change t.follow trail (name :: idle) = _ at hq
      rw [follow, hm] at hq
      cases hq
    · cases h

theorem makeFolder_adds (h : t.makeFolder p = .ok t') : AddsFolders t t' := by
  obtain ⟨-, trail, name, hf, hn, hnone, rfl⟩ := makeFolder_cases h
  exact addsFolders_setFolder hf hn hnone

theorem ensureFolder_adds (h : t.ensureFolder p = .ok t') : AddsFolders t t' := by
  rw [ensureFolder] at h
  split at h
  · next hm =>
    cases h
    exact makeFolder_adds hm
  · split at h
    · cases h
      exact AddsFolders.refl t
    · cases h

/-- The tree that a step leaves behind, whether it succeeded or not. -/
def left {ε : Type} : Except (ε × Tree) Tree → Tree
  | .ok t => t
  | .error (_, t) => t

theorem left_makeFoldersFrom (fuel : Nat) (t : Tree) (p : RawPath) :
    AddsFolders t (left (makeFoldersFrom fuel t p)) := by
  induction fuel generalizing p with
  | zero => exact AddsFolders.refl t
  | succ fuel ih =>
    rw [makeFoldersFrom]
    split
    · exact AddsFolders.refl t
    · split
      · next he => exact ensureFolder_adds he
      · split
        · exact AddsFolders.refl t
        · next above _ =>
          have hi := ih above
          cases hm : makeFoldersFrom fuel t above with
          | error e =>
            rw [hm] at hi
            exact hi
          | ok made =>
            rw [hm] at hi
            cases he : made.ensureFolder p with
            | error e => simpa [he, bind, Except.bind, Except.mapError, left] using hi
            | ok made' =>
              have ht := AddsFolders.trans hi (ensureFolder_adds he)
              simpa [he, bind, Except.bind, Except.mapError, left] using ht
      · exact AddsFolders.refl t

theorem left_makeFolders (t : Tree) (p : RawPath) : AddsFolders t (left (t.makeFolders p)) :=
  left_makeFoldersFrom _ t p

end MakeFolders

/-- A write needs a name in a folder. -/
theorem write_cases (h : t.write p bytes = .ok t') :
    ∃ parents trail name, textTrouble? p = none ∧ p.bodyParts = parents ++ [name] ∧
      t.follow (t.start p).1 parents = .ok trail ∧ t.node? trail = some .folder ∧ IsName name ∧
      t.node? (trail ++ [name]) ≠ some .folder ∧ t' = t.setFile (trail ++ [name]) bytes := by
  obtain ⟨⟨trail, name⟩, hslot, h⟩ := bind_eq_ok_iff.mp h
  obtain ⟨htext, hf, parents, hcut, hfollow⟩ := slot_eq_ok hslot
  dsimp only at h
  split at h
  · cases h
  · next hc =>
    have he : Enters name := by simp_all [Enters]
    have hslash : p.text.getLast? ≠ some slash := by simp_all
    obtain ⟨idle, hparts, hidle⟩ := cutLast_eq hcut he.1
    have hn := isName_of_mem_bodyParts htext (by simp [hparts]) he
    -- An empty part behind the name would be a separator at the end of the path.
    have hlast : p.bodyParts = parents ++ [name] := by
      have hl := mt (Path.getLast?_bodyParts (textTrouble?_eq_none_iff.mp htext).2.1).mp hslash
      cases idle using List.reverseRecOn with
      | nil => exact hparts
      | append_singleton idle x =>
        rw [hparts, hidle x (by simp)] at hl
        simp [List.getLast?_append, List.getLast?_cons] at hl
    refine ⟨parents, trail, name, htext, hlast, hfollow, hf, ?_⟩
    split at h
    · next found hs =>
      obtain ⟨rfl, -, hlen⟩ := step_enters he hs
      split at h
      · next b hb =>
        cases h
        refine ⟨hn hlen, ?_, rfl⟩
        simp [node?, Listing.node?, hb, Entry.node]
      · cases h
    · next hm =>
      obtain ⟨hlen, hnone⟩ := step_missing he hf hm
      cases h
      exact ⟨hn hlen, by simp [hnone], rfl⟩
    · cases h

/-- A written file is at the end of a trail, where its path leads from then on, and it is the only
change. -/
theorem write_eq_ok (h : t.write p bytes = .ok t') :
    ∃ q, Grows t t' ∧ t'.Leads p q ∧
      ∀ r, t'.node? r = if r = q then some (.file bytes) else t.node? r := by
  obtain ⟨parents, trail, name, htext, hparts, hfollow, hf, hn, hnf, rfl⟩ := write_cases h
  have hg := grows_setFile hf hn hnf bytes
  have hnode := node?_setFile hf hn hnf bytes
  refine ⟨trail ++ [name], hg, leads_iff.mpr ⟨htext, ?_⟩, hnode⟩
  rw [hg.start]
  change follow _ (t.start p).1 p.bodyParts = _
  rw [hparts]
  refine follow_concat.mpr ⟨_, hg.follow hfollow, ?_⟩
  exact step_name hn (hg.folder hf) (by simp [hnode])

end SourceMarks.Tree
