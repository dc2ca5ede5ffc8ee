import SourceMarks.Directive.Registry
import Mathlib.Data.List.Induction
import Mathlib.Data.List.Nodup

/-!
The labels of a registry. Main statement: of directives offered one after the other, one is refused
exactly if its label was offered before; the others are listed in order, and each label leads to its
directive.
-/
namespace SourceMarks.Registry
variable {r : Registry} {d : Directive} {ds : List Directive} {label : Text} {i : Nat}

/-- The labels, in order. -/
def labels (r : Registry) : List Text := r.directives.map Directive.label

section Lookup

theorem find?_eq_some_iff : r.places.find? label = some i ↔ r.labels[i]? = some label := by
  rw [r.inStep label i, labels, List.getElem?_map]

theorem find?_eq_none_iff : r.places.find? label = none ↔ label ∉ r.labels := by
  rw [Option.eq_none_iff_forall_ne_some, List.mem_iff_getElem?, not_exists]
  exact forall_congr' fun i => not_congr find?_eq_some_iff

/-- A label leads to one place only, so no two directives share one. -/
theorem distinct (r : Registry) : r.labels.Nodup := by
  rw [List.nodup_iff_getElem?_ne_getElem?]
  intro i j hij hj he
  have hlast : r.places.find? r.labels[j] = some j :=
    find?_eq_some_iff.mpr (List.getElem?_eq_getElem hj)
  have hfirst : r.places.find? r.labels[j] = some i :=
    find?_eq_some_iff.mpr (he.trans (List.getElem?_eq_getElem hj))
  rw [hlast] at hfirst
  exact Nat.ne_of_gt hij (Option.some.inj hfirst)

/-- What is looked up is what stands at the place of the label. -/
theorem get?_eq (r : Registry) (label : Text) :
    r.get? label = (r.places.find? label).bind fun i => r.directives[i]? := by
  unfold get?
  split
  · next h => rw [h, Option.bind_none]
  · next i h =>
    refine (List.getElem?_eq_getElem (r.inStep.lt_length h)).symm.trans ?_
    rw [h, Option.bind_some]

theorem get?_eq_some_iff : r.get? label = some d ↔ d ∈ r.directives ∧ d.label = label := by
  rw [get?_eq, Option.bind_eq_some_iff]
  constructor
  · intro h
    obtain ⟨i, hi, hd⟩ := h
    rw [r.inStep, hd] at hi
    exact ⟨List.mem_of_getElem? hd, Option.some.inj hi⟩
  · intro h
    obtain ⟨i, hi⟩ := List.mem_iff_getElem?.mp h.1
    refine ⟨i, ?_, hi⟩
    rw [r.inStep, hi, Option.map_some, h.2]

theorem get?_eq_none_iff : r.get? label = none ↔ ∀ d ∈ r.directives, d.label ≠ label := by
  rw [Option.eq_none_iff_forall_ne_some]
  refine forall_congr' fun d => ?_
  rw [ne_eq, get?_eq_some_iff, not_and]

end Lookup

section Offers

theorem offer_of_mem (h : d.label ∈ r.labels) :
    r.offer d = (.error (.duplicateLabel d.label), r) := by
  unfold offer
  split
  · rfl
  · next hn => exact absurd h (find?_eq_none_iff.mp hn)

theorem offer_of_not_mem (h : d.label ∉ r.labels) :
    (r.offer d).1 = .ok () ∧ (r.offer d).2.directives = r.directives ++ [d] := by
  unfold offer
  split
  · next hi =>
    rw [find?_eq_none_iff.mpr h] at hi
    cases hi
  · exact ⟨rfl, rfl⟩

/-- Offers directives one after the other: the answers in order, and the registry after all of
them. -/
def offerAll (r : Registry) : List Directive → List (Except Fault Unit) × Registry
  | [] => ([], r)
  | d :: ds => ((r.offer d).1 :: ((r.offer d).2.offerAll ds).1, ((r.offer d).2.offerAll ds).2)

/-- The answers to directives offered to the empty registry one after the other. -/
def answers (ds : List Directive) : List (Except Fault Unit) := (empty.offerAll ds).1

/-- The empty registry after some offers. -/
def after (ds : List Directive) : Registry := (empty.offerAll ds).2

/-- The directives whose offers were not refused. -/
def accepted (ds : List Directive) : List Directive :=
  ((ds.zip (answers ds)).filter fun p => p.2.isOk).map Prod.fst

theorem offerAll_append (r : Registry) (ds es : List Directive) : r.offerAll (ds ++ es) =
    ((r.offerAll ds).1 ++ ((r.offerAll ds).2.offerAll es).1,
      ((r.offerAll ds).2.offerAll es).2) := by
  induction ds generalizing r with
  | nil => rfl
  | cons d ds ih => rw [List.cons_append, offerAll, ih, offerAll, List.cons_append]

theorem length_answers (ds : List Directive) : (answers ds).length = ds.length := by
  rw [answers]
  generalize empty = r
  induction ds generalizing r with
  | nil => rfl
  | cons d ds ih => rw [offerAll, List.length_cons, List.length_cons, ih]

theorem after_concat (ds : List Directive) (d : Directive) :
    after (ds ++ [d]) = ((after ds).offer d).2 := by
  rw [after, offerAll_append]
  rfl

theorem answers_append_cons (ds : List Directive) (d : Directive) (es : List Directive) :
    answers (ds ++ d :: es) =
      answers ds ++ ((after ds).offer d).1 :: (((after ds).offer d).2.offerAll es).1 := by
  rw [answers, offerAll_append]
  rfl

theorem accepted_concat (ds : List Directive) (d : Directive) : accepted (ds ++ [d]) =
    accepted ds ++ if ((after ds).offer d).1.isOk then [d] else [] := by
  rw [accepted, answers_append_cons, List.zip_append (length_answers ds).symm, List.filter_append,
    List.map_append]
  refine congrArg (accepted ds ++ ·) ?_
  change (List.filter _ [(d, ((after ds).offer d).1)]).map Prod.fst = _
  cases h : ((after ds).offer d).1.isOk <;> simp [h]

/-- What an offer leaves is what was accepted, it included. -/
theorem directives_after (ds : List Directive) : (after ds).directives = accepted ds := by
  induction ds using List.reverseRecOn with
  | nil => rfl
  | append_singleton ds d ih =>
    rw [after_concat, accepted_concat, ← ih]
    by_cases h : d.label ∈ (after ds).labels
    · rw [offer_of_mem h]
      exact (List.append_nil _).symm
    · obtain ⟨hok, hnew⟩ := offer_of_not_mem h
      rw [hnew, hok]
      rfl

/-- Every label that was offered is there, whether at this offer or at an earlier one. -/
theorem mem_labels_after : label ∈ (after ds).labels ↔ label ∈ ds.map Directive.label := by
  induction ds using List.reverseRecOn generalizing label with
  | nil => exact Iff.rfl
  | append_singleton ds d ih =>
    rw [after_concat, List.map_append, List.mem_append, ← ih]
    by_cases h : d.label ∈ (after ds).labels
    · rw [offer_of_mem h]
      simp only [List.map_cons, List.map_nil, List.mem_singleton, iff_self_or]
      exact fun he => he ▸ h
    · rw [labels, (offer_of_not_mem h).2, List.map_append, List.mem_append]
      exact Iff.rfl

/-- Of directives offered one after the other, one is refused exactly if its label was offered
before, and the registry stays as it was. The others are listed in order, with labels of their own;
a label leads to the place of its directive, which is what is looked up, and no other label leads
anywhere. -/
theorem offers_exact :
    (∀ ds d es, (answers (ds ++ d :: es))[ds.length]? =
      some (if d.label ∈ ds.map Directive.label then .error (.duplicateLabel d.label)
        else .ok ())) ∧
    (∀ ds d, d.label ∈ ds.map Directive.label → after (ds ++ [d]) = after ds) ∧
    ∀ ds, (after ds).directives = accepted ds ∧ ((accepted ds).map Directive.label).Nodup ∧
      (∀ label d, (after ds).get? label = some d ↔ d ∈ accepted ds ∧ d.label = label) ∧
      (∀ label, (after ds).get? label = none ↔ ∀ d ∈ accepted ds, d.label ≠ label) ∧
      (∀ label i, (after ds).places.find? label = some i ↔
        ∃ d, (accepted ds)[i]? = some d ∧ d.label = label) ∧
      (after ds).size = (accepted ds).length ∧
      ((after ds).isEmpty = true ↔ (accepted ds).length = 0) := by
  refine ⟨fun ds d es => ?_, fun ds d h => ?_, fun ds => ?_⟩
  · rw [answers_append_cons, ← length_answers ds, List.getElem?_append_right (Nat.le_refl _),
      Nat.sub_self, List.getElem?_cons_zero]
    split
    · next h => rw [offer_of_mem (mem_labels_after.mpr h)]
    · next h => rw [(offer_of_not_mem (mt mem_labels_after.mp h)).1]
  · rw [after_concat, offer_of_mem (mem_labels_after.mpr h)]
  · rw [← directives_after ds]
    refine ⟨rfl, distinct _, fun label d => get?_eq_some_iff, fun label => get?_eq_none_iff,
      fun label i => ?_, rfl, ?_⟩
    · rw [(after ds).inStep, Option.map_eq_some_iff]
    · rw [isEmpty, List.isEmpty_iff, List.length_eq_zero_iff]

end Offers
end SourceMarks.Registry
