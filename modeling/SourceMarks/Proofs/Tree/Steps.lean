import SourceMarks.Proofs.Outcome
import SourceMarks.Proofs.Path.Below
import SourceMarks.Proofs.Tree.Nodes

/-! Following the parts of a path: what a step needs, and why it still leads there in a larger
tree. -/
namespace SourceMarks
open PathSymbol
variable {t t' : Tree} {part n : RawText} {trail next parts names : List RawText}

theorem Listing.get?_append {l inner : Listing} (h : l.get? trail = some (.folder inner))
    (r : List RawText) : l.get? (trail ++ r) = inner.get? r := by
  induction trail generalizing l with
  | nil =>
    cases h
    rfl
  | cons n trail ih =>
    rw [get?] at h
    rw [List.cons_append, get?]
    cases hf : l.find? n with
    | none => simp [hf] at h
    | some e =>
      cases e with
      | folder i =>
        rw [hf] at h
        exact ih h
      | file b =>
        rw [hf] at h
        dsimp only at h
        split at h <;> cases h

theorem Tree.node?_append {inner : Listing} (h : t.top.get? trail = some (.folder inner))
    (r : List RawText) : t.node? (trail ++ r) = inner.node? r := by
  rw [node?, Listing.node?, Listing.get?_append h, Listing.node?]

theorem IsName.solid (h : IsName n) : n ≠ [] ∧ slash ∉ n := ⟨h.1, h.2.2.2.1⟩

theorem IsName.not_idle (h : IsName n) : ¬ Path.Idle n := not_or.mpr ⟨h.1, h.2.1⟩

namespace Tree

/-- A step looks only at what stands at two trails. -/
theorem step_eq (t : Tree) (trail : List RawText) (part : RawText) :
    t.step trail part =
      match t.node? trail with
      | none => .error .missing
      | some (.file _) => .error .notFolder
      | some .folder =>
        if part = [] || part = [dot] then .ok trail
        else if part = [dot, dot] then .ok trail.dropLast
        else if 255 < part.length then .error .longName
        else if (t.node? (trail ++ [part])).isSome then .ok (trail ++ [part])
        else .error .missing := by
  rw [step, node?, Listing.node?, node?, Listing.node?]
  cases hg : t.top.get? trail with
  | none => rfl
  | some e =>
    cases e with
    | file b => rfl
    | folder inner =>
      have hs : (inner.find? part).isSome = (t.top.get? (trail ++ [part])).isSome := by
        rw [Listing.get?_append hg]
        cases hf : inner.find? part with
        | none => simp [Listing.get?, hf]
        | some e => cases e <;> simp [Listing.get?, hf]
      simp only [Option.map_some, Entry.node, hs, Option.isSome_map]

/-- The parts that only names can be. -/
def Enters (part : RawText) : Prop := part ≠ [] ∧ part ≠ [dot] ∧ part ≠ [dot, dot]

theorem enters_of_isName (h : IsName n) : Enters n := ⟨h.1, h.2.1, h.2.2.1⟩

theorem node?_dropLast (h : (t.node? trail).isSome) (hn : trail ≠ []) :
    t.node? trail.dropLast = some .folder := by
  rw [← List.dropLast_concat_getLast hn] at h
  exact node?_eq_folder h (List.cons_ne_nil _ _)

/-- Only a folder can be left by a step. -/
theorem folder_of_step (h : t.step trail part = .ok next) : t.node? trail = some .folder := by
  rw [step_eq] at h
  split at h
  · cases h
  · cases h
  · assumption

theorem step_enters (he : Enters part) (h : t.step trail part = .ok next) :
    next = trail ++ [part] ∧ (t.node? next).isSome ∧ part.length ≤ 255 := by
  obtain ⟨h1, h2, h3⟩ := he
  have hf := folder_of_step h
  rw [step_eq, hf] at h
  simp only [h1, h2, h3, decide_false, Bool.or_self, Bool.false_eq_true, if_false] at h
  split at h
  · cases h
  · next hl =>
    split at h
    · next hs =>
      cases h
      exact ⟨rfl, hs, by omega⟩
    · cases h

theorem step_name (hn : IsName n) (hf : t.node? trail = some .folder)
    (hs : (t.node? (trail ++ [n])).isSome) : t.step trail n = .ok (trail ++ [n]) := by
  obtain ⟨h1, h2, h3, -, -, hl⟩ := hn
  have hl' : ¬ 255 < n.length := by omega
  simp [step_eq, hf, h1, h2, h3, hl', hs]

/-- Where a name is missing in a folder, it could be put in. -/
theorem step_missing (he : Enters part) (hf : t.node? trail = some .folder)
    (h : t.step trail part = .error .missing) :
    part.length ≤ 255 ∧ t.node? (trail ++ [part]) = none := by
  obtain ⟨h1, h2, h3⟩ := he
  rw [step_eq, hf] at h
  simp only [h1, h2, h3, decide_false, Bool.or_self, Bool.false_eq_true, if_false] at h
  split at h
  · cases h
  · next hl =>
    split at h
    · cases h
    · next hn => exact ⟨by omega, by simpa using hn⟩

/-- A step ends where something stands. -/
theorem isSome_step (h : t.step trail part = .ok next) : (t.node? next).isSome := by
  have hf := folder_of_step h
  by_cases he : Enters part
  · exact (step_enters he h).2.1
  · rw [step_eq, hf] at h
    dsimp only at h
    split at h
    · cases h
      exact Option.isSome_of_eq_some hf
    · next hidle =>
      have hup : part = [dot, dot] := by
        by_contra hup
        exact he (by simpa [Enters, hup, not_or] using hidle)
      rw [if_pos hup] at h
      cases h
      by_cases hn : trail = []
      · subst hn
        rfl
      · exact Option.isSome_of_eq_some (node?_dropLast (Option.isSome_of_eq_some hf) hn)

theorem isSome_follow (hs : parts = [] → (t.node? trail).isSome)
    (h : t.follow trail parts = .ok next) : (t.node? next).isSome := by
  induction parts generalizing trail with
  | nil =>
    cases h
    exact hs rfl
  | cons part parts ih =>
    rw [follow] at h
    split at h
    · next hstep => exact ih (fun _ => isSome_step hstep) h
    · cases h

theorem follow_append (t : Tree) (trail parts parts' : List RawText) :
    t.follow trail (parts ++ parts') = t.follow trail parts >>= (t.follow · parts') := by
  induction parts generalizing trail with
  | nil => rfl
  | cons part parts ih =>
    rw [List.cons_append, follow, follow]
    cases t.step trail part with
    | error e => rfl
    | ok next => exact ih next

theorem follow_concat : t.follow trail (parts ++ [part]) = .ok next ↔
    ∃ mid, t.follow trail parts = .ok mid ∧ t.step mid part = .ok next := by
  rw [follow_append, bind_eq_ok_iff]
  refine exists_congr fun mid => and_congr_right fun _ => ?_
  rw [follow]
  cases t.step mid part <;> simp [follow]

/-- Parts that only names can be lead straight down. -/
theorem follow_enters (he : ∀ x ∈ parts, Enters x) (h : t.follow trail parts = .ok next) :
    next = trail ++ parts := by
  induction parts generalizing trail with
  | nil =>
    cases h
    exact (List.append_nil _).symm
  | cons x parts ih =>
    rw [List.forall_mem_cons] at he
    rw [follow] at h
    split at h
    · next mid hs =>
      obtain ⟨rfl, -⟩ := step_enters he.1 hs
      rw [ih he.2 h, List.append_assoc, List.singleton_append]
    · cases h

/-- Joined names are followed behind the parts of the path. -/
theorem start_join_names (hn : ∀ n ∈ names, n ≠ [] ∧ slash ∉ n) (hne : names ≠ []) (t : Tree)
    (p : RawPath) : t.start (p.join (.ofParts names)) =
      ((t.start p).1, Path.stem (t.start p).2 ++ names) := by
  have ha : (p.join (.ofParts names)).isAbsolute = p.isAbsolute :=
    Path.isAbsolute_join
      (Path.isAbsolute_ofParts (Path.slash_not_mem_names hn) (Path.head?_names hn))
  rw [start, start, ha, Path.bodyParts_join_names hn hne]

/-- What stands in one tree stands in the other too, files as files and folders as folders. -/
structure Grows (t t' : Tree) : Prop where
  home : t'.home = t.home
  stands : ∀ q n, t.node? q = some n → ∃ n', t'.node? q = some n' ∧ (n = .folder ↔ n' = .folder)

theorem Grows.refl (t : Tree) : Grows t t := ⟨rfl, fun _ n h => ⟨n, h, Iff.rfl⟩⟩

theorem Grows.trans {t'' : Tree} (h : Grows t t') (h' : Grows t' t'') : Grows t t'' := by
  refine ⟨h'.home.trans h.home, fun q n hn => ?_⟩
  obtain ⟨m, hm, hi⟩ := h.stands q n hn
  obtain ⟨k, hk, hj⟩ := h'.stands q m hm
  exact ⟨k, hk, hi.trans hj⟩

theorem Grows.start (h : Grows t t') (p : RawPath) : t'.start p = t.start p := by
  rw [Tree.start, Tree.start, h.home]

theorem Grows.folder (h : Grows t t') (hf : t.node? trail = some .folder) :
    t'.node? trail = some .folder := by
  obtain ⟨n, hn, hi⟩ := h.stands trail .folder hf
  rw [hn, hi.mp rfl]

theorem Grows.file {b : ByteArray} (h : Grows t t') (hf : t.node? trail = some (.file b)) :
    ∃ b', t'.node? trail = some (.file b') := by
  obtain ⟨n, hn, hi⟩ := h.stands trail (.file b) hf
  cases n with
  | folder => exact absurd (hi.mpr rfl) (by simp)
  | file b' => exact ⟨b', hn⟩

theorem Grows.isSome (h : Grows t t') (hs : (t.node? trail).isSome) : (t'.node? trail).isSome := by
  obtain ⟨n, hn⟩ := Option.isSome_iff_exists.mp hs
  obtain ⟨m, hm, -⟩ := h.stands trail n hn
  exact Option.isSome_of_eq_some hm

theorem Grows.step (h : Grows t t') (hs : t.step trail part = .ok next) :
    t'.step trail part = .ok next := by
  have hf := folder_of_step hs
  rw [step_eq, hf] at hs
  rw [step_eq, h.folder hf]
  dsimp only at hs ⊢
  split at hs
  · next hc => rwa [if_pos hc]
  · next hc =>
    rw [if_neg hc]
    split at hs
    · next hc => rwa [if_pos hc]
    · next hc =>
      rw [if_neg hc]
      split at hs
      · cases hs
      · next hc =>
        rw [if_neg hc]
        split at hs
        · next hc => rwa [if_pos (h.isSome hc)]
        · cases hs

theorem Grows.follow (h : Grows t t') (hf : t.follow trail parts = .ok next) :
    t'.follow trail parts = .ok next := by
  induction parts generalizing trail with
  | nil => exact hf
  | cons part parts ih =>
    rw [Tree.follow] at hf ⊢
    split at hf
    · next hs =>
      rw [h.step hs]
      exact ih hf
    · cases hf

end Tree
end SourceMarks
