import Mathlib.Data.List.Induction

/-! Outcomes of going through a list where each step may fail: all results, or the first fault. -/
namespace SourceMarks
variable {ε α β : Type}

theorem bind_eq_ok_iff {x : Except ε α} {f : α → Except ε β} {b : β} :
    x >>= f = .ok b ↔ ∃ a, x = .ok a ∧ f a = .ok b := by
  cases x with
  | error e => simp [bind, Except.bind]
  | ok a => simp [bind, Except.bind]

theorem bind_eq_error_iff {x : Except ε α} {f : α → Except ε β} {e : ε} :
    x >>= f = .error e ↔ x = .error e ∨ ∃ a, x = .ok a ∧ f a = .error e := by
  cases x with
  | error e => simp [bind, Except.bind]
  | ok a => simp [bind, Except.bind]

theorem bind_ok_eq_error_iff {x : Except ε α} {g : α → β} {e : ε} :
    (x >>= fun a => .ok (g a)) = .error e ↔ x = .error e := by
  cases x with
  | error e => simp [bind, Except.bind]
  | ok a => simp [bind, Except.bind]

theorem map_eq_ok_iff {x : Except ε α} {f : α → β} {b : β} :
    f <$> x = .ok b ↔ ∃ a, x = .ok a ∧ f a = b := by
  cases x with
  | error e => simp [Functor.map, Except.map]
  | ok a => simp [Functor.map, Except.map]

theorem map_eq_error_iff {x : Except ε α} {f : α → β} {e : ε} :
    f <$> x = .error e ↔ x = .error e := by
  cases x with
  | error e => simp [Functor.map, Except.map]
  | ok a => simp [Functor.map, Except.map]

theorem mapError_eq_ok_iff {δ : Type} {x : Except ε α} {f : ε → δ} {a : α} :
    x.mapError f = .ok a ↔ x = .ok a := by
  cases x with
  | error e => simp [Except.mapError]
  | ok a' => simp [Except.mapError]

theorem mapM_congr {g g' : α → Except ε β} {xs : List α} (h : ∀ x ∈ xs, g x = g' x) :
    xs.mapM g = xs.mapM g' := by
  induction xs with
  | nil => rfl
  | cons x xs ih =>
    rw [List.mapM_cons, List.mapM_cons, h x List.mem_cons_self,
      ih fun y hy => h y (List.mem_cons_of_mem x hy)]

theorem mapM_eq_ok_iff [Inhabited β] {g : α → Except ε β} {xs : List α} {ys : List β} :
    xs.mapM g = .ok ys ↔ ∃ new : α → β, (∀ x ∈ xs, g x = .ok (new x)) ∧ ys = xs.map new := by
  constructor
  · intro h
    refine ⟨fun x => (g x).toOption.getD default, ?_⟩
    induction xs generalizing ys with
    | nil =>
      cases h
      simp
    | cons x xs ih =>
      rw [List.mapM_cons] at h
      obtain ⟨y, hy, h⟩ := bind_eq_ok_iff.mp h
      obtain ⟨zs, hz, h⟩ := bind_eq_ok_iff.mp h
      cases h
      obtain ⟨ht, rfl⟩ := ih hz
      refine ⟨fun z hm => ?_, by simp [hy, Except.toOption]⟩
      cases List.mem_cons.mp hm with
      | inl he => simp [he, hy, Except.toOption]
      | inr hm => exact ht z hm
  · intro h
    obtain ⟨new, h, rfl⟩ := h
    induction xs with
    | nil => rfl
    | cons x xs ih =>
      rw [List.mapM_cons, h x List.mem_cons_self, ih fun z hz => h z (List.mem_cons_of_mem x hz)]
      rfl

section Faults
variable {P Q : List α → α → ε → Prop} {xs : List α} {e : ε}

/-- No item is at fault, given the items before it. -/
def Faultless (P : List α → α → ε → Prop) (xs : List α) : Prop :=
  ∀ before x after e, xs = before ++ x :: after → ¬ P before x e

/-- The first item at fault, given the items before it, has this fault. -/
def FirstFault (P : List α → α → ε → Prop) (xs : List α) (e : ε) : Prop :=
  ∃ before x after, xs = before ++ x :: after ∧ Faultless P before ∧ P before x e

theorem FirstFault.not_faultless (h : FirstFault P xs e) : ¬ Faultless P xs := by
  obtain ⟨before, x, after, hs, -, hx⟩ := h
  exact fun hf => hf before x after e hs hx

theorem FirstFault.append (h : FirstFault P xs e) (ys : List α) : FirstFault P (xs ++ ys) e := by
  obtain ⟨before, x, after, rfl, hf, hx⟩ := h
  exact ⟨before, x, after ++ ys, by simp, hf, hx⟩

theorem firstFault_of_last {x : α} (h : Faultless P xs) (hx : P xs x e) :
    FirstFault P (xs ++ [x]) e :=
  ⟨xs, x, [], rfl, h, hx⟩

theorem faultless_nil : Faultless P [] := by
  intro before x after e h
  simp at h

theorem faultless_append_singleton {x : α} (h : Faultless P xs) (hx : ∀ e, ¬ P xs x e) :
    Faultless P (xs ++ [x]) := by
  intro before y after e hs
  cases after using List.reverseRecOn with
  | nil =>
    obtain ⟨rfl, hy⟩ := List.append_inj' hs rfl
    obtain rfl : x = y := by simpa using hy
    exact hx e
  | append_singleton after z =>
    rw [← List.cons_append, ← List.append_assoc] at hs
    obtain ⟨rfl, -⟩ := List.append_inj' hs rfl
    exact h before y after e rfl

theorem exists_firstFault (h : ¬ Faultless P xs) : ∃ e, FirstFault P xs e := by
  induction xs using List.reverseRecOn with
  | nil => exact absurd faultless_nil h
  | append_singleton xs x ih =>
    by_cases hf : Faultless P xs
    · by_contra hn
      exact h (faultless_append_singleton hf fun e hx => hn ⟨e, firstFault_of_last hf hx⟩)
    · obtain ⟨e, he⟩ := ih hf
      exact ⟨e, he.append [x]⟩

theorem FirstFault.congr (h : FirstFault P xs e)
    (hpq : ∀ before x after e, xs = before ++ x :: after → (P before x e ↔ Q before x e)) :
    FirstFault Q xs e := by
  obtain ⟨before, x, after, rfl, hf, hx⟩ := h
  refine ⟨before, x, after, rfl, fun front y back e' hb hq => ?_, (hpq before x after e rfl).mp hx⟩
  refine hf front y back e' hb ((hpq front y (back ++ x :: after) e' ?_).mpr hq)
  simp [hb]

theorem faultless_of_forall_ok {g : α → Except ε β} (h : ∀ x ∈ xs, ∃ y, g x = .ok y) :
    Faultless (fun _ x e => g x = .error e) xs := by
  intro before x after e hs hx
  obtain ⟨y, hy⟩ := h x (by simp [hs])
  rw [hx] at hy
  cases hy

theorem forall_ok_of_faultless {g : α → Except ε β}
    (h : Faultless (fun _ x e => g x = .error e) xs) : ∀ x ∈ xs, ∃ y, g x = .ok y := by
  intro x hx
  obtain ⟨before, after, hs⟩ := List.append_of_mem hx
  cases hg : g x with
  | ok y => exact ⟨y, rfl⟩
  | error e => exact absurd hg (h before x after e hs)

theorem firstFault_of_mapM_eq_error {g : α → Except ε β} (h : xs.mapM g = .error e) :
    FirstFault (fun _ x e => g x = .error e) xs e := by
  induction xs with
  | nil => cases h
  | cons x xs ih =>
    rw [List.mapM_cons] at h
    cases bind_eq_error_iff.mp h with
    | inl h => exact ⟨[], x, xs, rfl, faultless_nil, h⟩
    | inr h =>
      obtain ⟨y, hy, h⟩ := h
      cases bind_eq_error_iff.mp h with
      | inl h =>
        obtain ⟨before, z, after, rfl, hf, hz⟩ := ih h
        refine ⟨x :: before, z, after, rfl, faultless_of_forall_ok ?_, hz⟩
        intro w hw
        cases List.mem_cons.mp hw with
        | inl he => exact ⟨y, he ▸ hy⟩
        | inr hw => exact forall_ok_of_faultless hf w hw
      | inr h =>
        obtain ⟨ys, -, h⟩ := h
        cases h

theorem mapM_eq_error_of_firstFault {g : α → Except ε β}
    (h : FirstFault (fun _ x e => g x = .error e) xs e) : xs.mapM g = .error e := by
  obtain ⟨before, x, after, rfl, hf, hx⟩ := h
  rw [List.mapM_append, List.mapM_cons, hx]
  cases hb : before.mapM g with
  | error e' => exact absurd hf (firstFault_of_mapM_eq_error hb).not_faultless
  | ok ys => rfl

/-- Where a fault does not depend on what was before, a list is faultless if each of its items
is. -/
theorem faultless_iff {R : α → ε → Prop} : Faultless (fun _ => R) xs ↔ ∀ x ∈ xs, ∀ e, ¬ R x e := by
  constructor
  · intro h x hx e
    obtain ⟨before, after, hs⟩ := List.append_of_mem hx
    exact h before x after e hs
  · intro h before x after e hs
    exact h x (by simp [hs]) e

theorem firstFault_cons_iff {R : α → ε → Prop} {x : α} : FirstFault (fun _ => R) (x :: xs) e ↔
    R x e ∨ (∀ e', ¬ R x e') ∧ FirstFault (fun _ => R) xs e := by
  constructor
  · intro h
    obtain ⟨before, y, after, hs, hf, hy⟩ := h
    cases before with
    | nil =>
      obtain ⟨rfl, -⟩ := List.cons.inj hs
      exact Or.inl hy
    | cons z before =>
      obtain ⟨rfl, rfl⟩ := List.cons.inj hs
      rw [faultless_iff, List.forall_mem_cons] at hf
      exact Or.inr ⟨hf.1, before, y, after, rfl, faultless_iff.mpr hf.2, hy⟩
  · intro h
    cases h with
    | inl hx => exact ⟨[], x, xs, rfl, faultless_nil, hx⟩
    | inr h =>
      obtain ⟨hx, before, y, after, rfl, hf, hy⟩ := h
      refine ⟨x :: before, y, after, rfl, ?_, hy⟩
      rw [faultless_iff, List.forall_mem_cons]
      exact ⟨hx, faultless_iff.mp hf⟩

/-- If what a step fails with does not depend on the state, a run stops at the first item at
fault. -/
theorem foldlM_eq_error_iff {R : α → ε → Prop} {f : β → α → Except ε β} {b : β}
    (h : ∀ b x e, f b x = .error e ↔ R x e) :
    xs.foldlM f b = .error e ↔ FirstFault (fun _ => R) xs e := by
  induction xs generalizing b with
  | nil => simp [FirstFault, pure, Except.pure]
  | cons x xs ih =>
    rw [List.foldlM_cons, firstFault_cons_iff, bind_eq_error_iff, h]
    refine or_congr_right ?_
    cases hx : f b x with
    | error e' =>
      have hfault : R x e' := (h b x e').mp hx
      constructor
      · intro hnext
        obtain ⟨next, hn, -⟩ := hnext
        cases hn
      · intro hclean
        exact absurd hfault (hclean.1 e')
    | ok next =>
      have hclean : ∀ e', ¬ R x e' := by
        intro e' hr
        rw [(h b x e').mpr hr] at hx
        cases hx
      simp [hclean, ih]

end Faults
end SourceMarks
