import SourceMarks.Text.Basic

/-! Pieces between separators, and joining them again. -/
namespace SourceMarks.Text
variable {α : Type} [DecidableEq α] {sep : α} {a b p : Text α} {ps qs : List (Text α)}

theorem split_ne_nil (sep : α) (t : Text α) : split sep t ≠ [] := by
  cases t with
  | nil => simp [split]
  | cons c t =>
    rw [split]
    split
    · simp
    · split <;> simp

theorem split_cons_of_ne {c : α} (h : c ≠ sep) (t : Text α) :
    ∃ q qs, split sep t = q :: qs ∧ split sep (c :: t) = (c :: q) :: qs := by
  cases hs : split sep t with
  | nil => exact absurd hs (split_ne_nil sep t)
  | cons q qs => exact ⟨q, qs, rfl, by simp [split, h, hs]⟩

theorem split_append (sep : α) (a b : Text α) :
    split sep (a ++ sep :: b) = split sep a ++ split sep b := by
  induction a with
  | nil => simp [split]
  | cons c a ih =>
    by_cases h : c = sep
    · simp [split, h, ih]
    · obtain ⟨q, qs, hq, hc⟩ := split_cons_of_ne h a
      obtain ⟨q', qs', hq', hc'⟩ := split_cons_of_ne h (a ++ sep :: b)
      rw [ih, hq, List.cons_append] at hq'
      cases hq'
      rw [List.cons_append, hc', hc, List.cons_append]

theorem length_split (sep : α) (t : Text α) : (split sep t).length = t.count sep + 1 := by
  induction t with
  | nil => rfl
  | cons c t ih =>
    by_cases hc : c = sep
    · simp [split, hc, ih]
    · obtain ⟨q, qs, hq, hs⟩ := split_cons_of_ne hc t
      rw [hq, List.length_cons] at ih
      rw [hs, List.length_cons, ih, List.count_cons_of_ne hc]

theorem split_of_not_mem (h : sep ∉ a) : split sep a = [a] := by
  induction a with
  | nil => rfl
  | cons c a ih =>
    have hc : c ≠ sep := fun e => h (e ▸ List.mem_cons_self)
    simp [split, hc, ih (List.not_mem_of_not_mem_cons h)]

theorem not_mem_of_mem_split {t : Text α} (h : p ∈ split sep t) : sep ∉ p := by
  induction t generalizing p with
  | nil => simp_all [split]
  | cons c t ih =>
    by_cases hc : c = sep
    · simp only [split, hc, if_true, List.mem_cons] at h
      cases h with
      | inl h => simp [h]
      | inr h => exact ih h
    · obtain ⟨q, qs, hq, hs⟩ := split_cons_of_ne hc t
      rw [hs] at h
      cases List.mem_cons.mp h with
      | inl h =>
        have hn := ih (hq ▸ List.mem_cons_self)
        simp [h, hn, Ne.symm hc]
      | inr h => exact ih (hq ▸ List.mem_cons_of_mem q h)

theorem subset_of_mem_split {t : Text α} (h : p ∈ split sep t) : p ⊆ t := by
  induction t generalizing p with
  | nil => simp_all [split]
  | cons c t ih =>
    rw [split] at h
    split at h
    · cases List.mem_cons.mp h with
      | inl h => simp [h]
      | inr h => exact fun d hd => List.mem_cons_of_mem c (ih h hd)
    · split at h
      · next hs => exact absurd hs (split_ne_nil sep t)
      · next piece pieces hs =>
        rw [hs] at ih
        cases List.mem_cons.mp h with
        | inl h =>
          subst h
          exact List.cons_subset_cons c (ih List.mem_cons_self)
        | inr h => exact fun d hd => List.mem_cons_of_mem c (ih (List.mem_cons_of_mem _ h) hd)

omit [DecidableEq α] in
theorem join_cons (sep w : Text α) (ws : List (Text α)) :
    join sep (w :: ws) = w ++ ws.flatMap fun v => sep ++ v := by
  induction ws generalizing w with
  | nil => simp [join]
  | cons v ws ih => simp [join, ih, List.append_assoc]

omit [DecidableEq α] in
theorem join_append (sep : Text α) (hp : ps ≠ []) (hq : qs ≠ []) :
    join sep (ps ++ qs) = join sep ps ++ sep ++ join sep qs := by
  obtain ⟨p, ps, rfl⟩ := List.exists_cons_of_ne_nil hp
  obtain ⟨q, qs, rfl⟩ := List.exists_cons_of_ne_nil hq
  simp [join_cons]

omit [DecidableEq α] in
theorem join_next (sep : α) (p : Text α) (hp : ps ≠ []) :
    join [sep] (p :: ps) = p ++ sep :: join [sep] ps := by
  obtain ⟨q, ps, rfl⟩ := List.exists_cons_of_ne_nil hp
  simp [join_cons]

theorem split_join (h : ∀ p ∈ ps, sep ∉ p) (hp : ps ≠ []) : split sep (join [sep] ps) = ps := by
  induction ps with
  | nil => exact absurd rfl hp
  | cons p ps ih =>
    rw [List.forall_mem_cons] at h
    by_cases hn : ps = []
    · subst hn
      exact split_of_not_mem h.1
    · rw [join_next sep p hn, split_append, split_of_not_mem h.1, ih h.2 hn]
      rfl

theorem join_split (sep : α) (t : Text α) : join [sep] (split sep t) = t := by
  induction t with
  | nil => rfl
  | cons c t ih =>
    by_cases hc : c = sep
    · rw [split, if_pos hc, join_next sep [] (split_ne_nil sep t), ih, hc]
      rfl
    · obtain ⟨q, qs, hq, hs⟩ := split_cons_of_ne hc t
      rw [hq] at ih
      rw [hs, ← ih]
      cases qs with
      | nil => rfl
      | cons q' qs => simp [join]

omit [DecidableEq α] in
theorem not_mem_join {c : α} (hc : c ≠ sep) (h : ∀ p ∈ ps, c ∉ p) : c ∉ join [sep] ps := by
  induction ps with
  | nil => exact List.not_mem_nil
  | cons p ps ih =>
    rw [List.forall_mem_cons] at h
    by_cases hn : ps = []
    · subst hn
      exact h.1
    · rw [join_next sep p hn, List.mem_append, List.mem_cons]
      rintro (hp | hs | hr)
      · exact h.1 hp
      · exact hc hs
      · exact ih h.2 hr

omit [DecidableEq α] in
theorem join_eq_nil_iff (h : ∀ p ∈ ps, p ≠ []) : join [sep] ps = [] ↔ ps = [] := by
  cases ps with
  | nil => simp [join]
  | cons p ps => simp [join_cons, h p List.mem_cons_self]

end SourceMarks.Text
