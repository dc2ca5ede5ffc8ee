import Mathlib.Data.List.Nodup
import SourceMarks.Proofs.Tree.Files

/-!
The entries below a folder, as a walk finds them: each that is admitted all the way down through
folders that can be opened, and none twice. Names lead down to the entry that they stand for.
-/
namespace SourceMarks
variable {l inner : Listing} {t : Tree} {p : RawPath} {keep : Nat → RawText → Bool} {depth : Nat}
  {n : RawText} {names trail q : List RawText}

namespace Listing

/-- Every name is admitted at its depth. -/
def Admitted (keep : Nat → RawText → Bool) : (depth : Nat) → List RawText → Prop
  | _, [] => True
  | depth, n :: names => keep depth n = true ∧ Admitted keep (depth + 1) names

/-- The path of every folder on the way down to the last name can be looked up. -/
def Opens : RawPath → List RawText → Prop
  | p, n :: next :: names =>
    Tree.textTrouble? (p.join ⟨n⟩) = none ∧ Opens (p.join ⟨n⟩) (next :: names)
  | _, _ => True

theorem admitted_and {other : Nat → RawText → Bool} :
    Admitted (fun d n => keep d n && other d n) depth names ↔
      Admitted keep depth names ∧ Admitted other depth names := by
  induction names generalizing depth with
  | nil => simp [Admitted]
  | cons n names ih =>
    rw [Admitted, Admitted, Admitted, Bool.and_eq_true, ih]
    exact and_and_and_comm

theorem find?_of_not_mem (h : n ∉ l.names) : l.find? n = none := by
  induction l with
  | nil => rfl
  | file m b rest ih | folder m inner rest _ ih =>
    rw [Listing.names, List.mem_cons, not_or] at h
    rw [find?, if_neg (Ne.symm h.1), ih h.2]

theorem node?_of_not_mem (h : n ∉ l.names) (names : List RawText) :
    l.node? (n :: names) = none := by
  rw [node?_cons, find?_of_not_mem h]
  rfl

/-- What a walk finds in a folder: its name, and behind its name what is found inside. -/
theorem mem_walk_folder (hi : ∀ names, names ∈ inner.walk keep (depth + 1) (p.join ⟨n⟩) ↔
      names ≠ [] ∧ (inner.node? names).isSome ∧ Admitted keep (depth + 1) names ∧
        Opens (p.join ⟨n⟩) names) :
    names ∈ [n] :: (if (Tree.textTrouble? (p.join ⟨n⟩)).isNone then
        inner.walk keep (depth + 1) (p.join ⟨n⟩) else []).map (n :: ·) ↔
      ∃ below, names = n :: below ∧ (inner.node? below).isSome ∧
        Admitted keep (depth + 1) below ∧ Opens p (n :: below) := by
  rw [List.mem_cons, List.mem_map]
  constructor
  · rintro (rfl | ⟨below, hb, rfl⟩)
    · exact ⟨[], rfl, rfl, trivial, trivial⟩
    · split at hb
      · next hopen =>
        obtain ⟨hne, hnode, hadmitted, hopens⟩ := (hi below).mp hb
        obtain ⟨next, below, rfl⟩ := List.exists_cons_of_ne_nil hne
        exact ⟨_, rfl, hnode, hadmitted, Option.isNone_iff_eq_none.mp hopen, hopens⟩
      · cases hb
  · rintro ⟨below, rfl, hnode, hadmitted, hopens⟩
    cases below with
    | nil => exact Or.inl rfl
    | cons next below =>
      refine Or.inr ⟨next :: below, ?_, rfl⟩
      rw [if_pos (Option.isNone_iff_eq_none.mpr hopens.1)]
      exact (hi _).mpr ⟨List.cons_ne_nil _ _, hnode, hadmitted, hopens.2⟩

theorem mem_walk (hl : l.Proper) : names ∈ l.walk keep depth p ↔
    names ≠ [] ∧ (l.node? names).isSome ∧ Admitted keep depth names ∧ Opens p names := by
  induction l generalizing depth p names with
  | nil => cases names <;> simp [walk, node?_cons, find?]
  | file n b rest ih =>
    obtain ⟨-, hm, hr⟩ := hl
    rw [walk, List.mem_append, ih hr]
    cases names with
    | nil => split <;> simp
    | cons m names =>
      by_cases hn : n = m
      · subst hn
        have hrest := node?_of_not_mem hm names
        by_cases hk : keep depth n
        · cases names <;> simp [hk, hrest, node?_cons, find?, Entry.node?, Admitted, Opens]
        · simp [hk, hrest, Admitted]
      · split <;> simp [node?_cons, find?, hn, Ne.symm hn]
  | folder n inner rest ihi ihr =>
    obtain ⟨-, hm, hi, hr⟩ := hl
    rw [walk, List.mem_append, ihr hr]
    have hfolder : names ∈ (if keep depth n then [n] :: (if (Tree.textTrouble? (p.join ⟨n⟩)).isNone
          then inner.walk keep (depth + 1) (p.join ⟨n⟩) else []).map (n :: ·) else []) ↔
        keep depth n = true ∧ ∃ below, names = n :: below ∧ (inner.node? below).isSome ∧
          Admitted keep (depth + 1) below ∧ Opens p (n :: below) := by
      rw [← mem_walk_folder fun names => ihi hi]
      split <;> simp [*]
    rw [hfolder]
    cases names with
    | nil => simp
    | cons m names =>
      by_cases hn : n = m
      · subst hn
        have hrest := node?_of_not_mem hm names
        simp [hrest, node?_cons, find?, Entry.node?, Admitted, and_left_comm, and_assoc]
      · simp [node?_cons, find?, hn, Ne.symm hn]

theorem nodup_walk (hl : l.Proper) : (l.walk keep depth p).Nodup := by
  induction l generalizing depth p with
  | nil => exact List.nodup_nil
  | file n b rest ih =>
    obtain ⟨-, hm, hr⟩ := hl
    rw [walk]
    split
    · refine List.nodup_cons.mpr ⟨fun h => ?_, ih hr⟩
      have hnode := ((mem_walk hr).mp h).2.1
      rw [node?_of_not_mem hm] at hnode
      cases hnode
    · exact ih hr
  | folder n inner rest ihi ihr =>
    obtain ⟨-, hm, hi, hr⟩ := hl
    rw [walk]
    split
    · refine List.Nodup.append ?_ (ihr hr) fun names hin hrest => ?_
      · refine List.nodup_cons.mpr ⟨fun h => ?_, List.Nodup.map List.cons_injective ?_⟩
        · obtain ⟨below, hb, he⟩ := List.mem_map.mp h
          cases he
          split at hb
          · exact ((mem_walk hi).mp hb).1 rfl
          · cases hb
        · split
          · exact ihi hi
          · exact List.nodup_nil
      · obtain ⟨-, hnode, -⟩ := (mem_walk hr).mp hrest
        obtain ⟨below, rfl, -⟩ := (mem_walk_folder fun names => mem_walk hi).mp hin
        rw [node?_of_not_mem hm] at hnode
        cases hnode
    · exact ihr hr

end Listing

namespace Tree

theorem isThere_iff : t.isThere p ↔ ∃ q, t.Leads p q := by
  have hread : t.isThere p ↔ ∃ e, t.entry p = .ok e := by
    rw [isThere]
    cases t.entry p <;> simp [Except.isOk, Except.toBool]
  rw [hread]
  constructor
  · rintro ⟨e, he⟩
    obtain ⟨q, hl, -⟩ := entry_eq_ok_iff.mp he
    exact ⟨q, hl⟩
  · rintro ⟨q, hl⟩
    have hs := hl.isSome
    rw [node?, Listing.node?, Option.isSome_map] at hs
    obtain ⟨e, he⟩ := Option.isSome_iff_exists.mp hs
    exact ⟨e, entry_eq_ok_iff.mpr ⟨q, hl, he⟩⟩

theorem isSome_front (h : (t.node? (trail ++ names)).isSome) : (t.node? trail).isSome := by
  by_cases hn : names = []
  · simpa [hn] using h
  · exact Option.isSome_of_eq_some (node?_eq_folder h hn)

/-- Names lead down to what stands there. -/
theorem follow_down (h : (t.node? (trail ++ names)).isSome) :
    t.follow trail names = .ok (trail ++ names) := by
  induction names generalizing trail with
  | nil => simp [follow]
  | cons n names ih =>
    rw [List.append_cons] at h ⊢
    have hn : IsName n := isName_of_node? h n (by simp)
    have hstep := isSome_front h
    have hf := node?_dropLast hstep (by simp)
    rw [List.dropLast_concat] at hf
    rw [follow, step_name hn hf hstep]
    exact ih h

end Tree

/-- Below a path that can be looked up, the folder that the last name stands in decides. -/
theorem Listing.opens_iff (hp : Tree.textTrouble? p = none)
    (hn : ∀ n ∈ names, n ≠ [] ∧ PathSymbol.slash ∉ n) :
    Opens p names ↔ Tree.textTrouble? (p.under names.dropLast) = none := by
  induction names generalizing p with
  | nil => exact iff_of_true trivial hp
  | cons n names ih =>
    rw [List.forall_mem_cons] at hn
    cases names with
    | nil => exact iff_of_true trivial hp
    | cons next names =>
      have hunder : p.under (n :: next :: names).dropLast =
          (p.join ⟨n⟩).under (next :: names).dropLast := rfl
      rw [hunder]
      by_cases hj : Tree.textTrouble? (p.join ⟨n⟩) = none
      · rw [← ih hj hn.2]
        exact and_iff_right hj
      · -- A longer path is in trouble too.
        have hbelow : ∀ m ∈ (next :: names).dropLast, m ≠ [] ∧ PathSymbol.slash ∉ m := fun m hm =>
          hn.2 m (List.dropLast_subset _ hm)
        have hne := Path.text_join_ne_nil (p := p) (q := ⟨n⟩) (Path.isAbsolute_name hn.1.2) hn.1.1
        exact iff_of_false (fun h => hj h.1)
          (mt (Tree.textTrouble?_front (Path.prefix_text_under hbelow _) hne) hj)

end SourceMarks
