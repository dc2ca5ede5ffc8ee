import SourceMarks.Proofs.Check.Faults
import SourceMarks.Proofs.Version.Target

/-!
A check and the transforms agree. Main statement: a check finds no error just when both transforms
succeed, and whatever fault ends a transform is among those that it finds.
-/
namespace SourceMarks
open Expansion (Unresolved)

theorem taken_append_singleton {os : List Occurrence} {o : Occurrence} {label : Text} :
    Taken (os ++ [o]) label ↔
      Taken os label ∨ ∃ d, Payload.parse o.payload = .ok d ∧ d.label = label := by
  simp only [Taken, List.mem_append, List.mem_singleton]
  constructor
  · intro h
    obtain ⟨o', ho | rfl, hd⟩ := h
    · exact Or.inl ⟨o', ho, hd⟩
    · exact Or.inr hd
  · intro h
    obtain ⟨o', ho, hd⟩ | hd := h
    · exact ⟨o', Or.inl ho, hd⟩
    · exact ⟨o, Or.inr rfl, hd⟩

namespace Check
variable {m : Option Matcher} {labels : List Text} {prior : List Occurrence} {o : Occurrence}

/-- What is found at a load marker that stands behind others: its offence or, if it has none, what
keeps its files from being found. -/
def Finding (m : Option Matcher) (before : List Occurrence) (o : Occurrence) (e : Fault) : Prop :=
  Offence before o e ∨
    (∀ e', ¬ Offence before o e') ∧ ∃ matcher ∈ m, Unresolved matcher before o e

theorem mem_labelsAfter_iff (h : ∀ l, l ∈ labels ↔ Taken prior l) (l : Text) :
    l ∈ labelsAfter labels o ↔ Taken (prior ++ [o]) l := by
  rw [taken_append_singleton, ← h, labelsAfter]
  cases Payload.parse o.payload with
  | error e => simp
  | ok d =>
    by_cases hd : d.label ∈ labels
    · simp only [List.contains_iff_mem, hd, if_true, Except.ok.injEq, exists_eq_left']
      exact ⟨Or.inl, fun hl => hl.elim id fun hl => hl ▸ hd⟩
    · simp [hd, or_comm, eq_comm]

theorem mem_fileFaults_iff {d : Directive} {e : Fault} :
    e ∈ fileFaults m d ↔ ∃ matcher ∈ m, d.resolve matcher = .error e := by
  cases m with
  | none => simp [fileFaults]
  | some m =>
    cases hr : d.resolve m with
    | ok files => simp [fileFaults, hr]
    | error e' => simp [fileFaults, hr, eq_comm]

theorem mem_markerFaults_iff (h : ∀ l, l ∈ labels ↔ Taken prior l) {e : Fault} :
    e ∈ markerFaults m labels o ↔ Finding m prior o e := by
  unfold markerFaults Finding Offence Unresolved
  cases hp : Payload.parse o.payload with
  | error e' => simp [eq_comm]
  | ok d =>
    by_cases hd : d.label ∈ labels
    · simp [hd, (h d.label).mp hd]
    · simp [hd, mt (h d.label).mpr hd, mem_fileFaults_iff]

theorem mem_loadFaults_iff {os : List Occurrence} (h : ∀ l, l ∈ labels ↔ Taken prior l)
    {e : Fault} : e ∈ loadFaults m labels os ↔
      ∃ before o after, os = before ++ o :: after ∧ Finding m (prior ++ before) o e := by
  induction os generalizing labels prior with
  | nil => simp [loadFaults]
  | cons o os ih =>
    rw [loadFaults, List.mem_append, mem_markerFaults_iff h, ih (mem_labelsAfter_iff h)]
    constructor
    · intro h
      obtain hf | ⟨before, x, after, rfl, hf⟩ := h
      · exact ⟨[], o, os, rfl, by rwa [List.append_nil]⟩
      · exact ⟨o :: before, x, after, rfl, by simpa using hf⟩
    · intro h
      obtain ⟨before, x, after, hs, hf⟩ := h
      cases before with
      | nil =>
        obtain ⟨rfl, rfl⟩ := List.cons.inj hs
        exact Or.inl (by rwa [List.append_nil] at hf)
      | cons y before =>
        obtain ⟨rfl, rfl⟩ := List.cons.inj hs
        exact Or.inr ⟨before, x, after, rfl, by simpa using hf⟩

theorem mem_loadFaults_nil_iff {os : List Occurrence} {e : Fault} : e ∈ loadFaults m [] os ↔
    ∃ before o after, os = before ++ o :: after ∧ Finding m before o e :=
  @mem_loadFaults_iff m [] [] os (by simp [Taken]) e

theorem mem_targetFaults_iff {os : List Occurrence} {e : Fault} :
    e ∈ targetFaults os ↔ ∃ o ∈ os, Version.classify o.payload = .error e := by
  induction os with
  | nil => simp [targetFaults]
  | cons o os ih =>
    rw [targetFaults]
    cases hc : Version.classify o.payload with
    | ok kind => simp [ih, hc]
    | error e' => simp [ih, hc, eq_comm]

theorem mem_emptyFaults_iff {text : Text} {e : Fault} :
    e ∈ emptyFaults text ↔ Marker.emptyLoad <:+: text ∧ e = .emptyArguments := by
  rw [← Text.isSome_before?_iff, emptyFaults, Marker.emptyLoadLine?, Option.isSome_map]
  split <;> simp_all

section Transforms
variable {m : Matcher} {text token out : Text} {e : Fault}

theorem mem_faults_of_expand (h : Expansion.expand m text = .error e) :
    e ∈ faults (some m) text := by
  rw [faults, List.append_assoc, List.mem_append, List.mem_append]
  by_cases he : Marker.emptyLoad <:+: text
  · rw [Expansion.expand_of_empty he] at h
    exact Or.inr (Or.inl (mem_emptyFaults_iff.mpr ⟨he, (Except.error.inj h).symm⟩))
  · refine Or.inl (mem_loadFaults_nil_iff.mpr ?_)
    by_cases hf : Faultless Offence (Marker.load.scan text)
    · rw [Expansion.expand_of_faultless he hf] at h
      obtain ⟨e', hu, hr⟩ | ⟨new, -, hr⟩ := Expansion.replace_rendered (m := m) hf
      · rw [h] at hr
        obtain rfl := Except.error.inj hr
        obtain ⟨before, o, after, hs, -, ho⟩ := hu
        exact ⟨before, o, after, hs, Or.inr ⟨fun e' => hf before o after e' hs, m, rfl, ho⟩⟩
      · rw [h] at hr
        cases hr
    · obtain ⟨e', hu, hr⟩ := Expansion.expand_of_offence (m := m) he hf
      rw [h] at hr
      obtain rfl := Except.error.inj hr
      obtain ⟨before, o, after, hs, -, ho⟩ := hu
      exact ⟨before, o, after, hs, Or.inl ho⟩

theorem mem_faults_of_stamp (matcher : Option Matcher) (h : Version.stamp token text = .error e) :
    e ∈ faults matcher text := by
  obtain ⟨p, hp, he⟩ := Marker.replace_eq_error (g := fun p => Version.version p token) h
  rw [← Marker.map_payload_scan] at hp
  obtain ⟨o, ho, rfl⟩ := List.mem_map.mp hp
  rw [faults, List.mem_append, mem_targetFaults_iff]
  exact Or.inr ⟨o, ho, Version.version_eq_error_iff.mp he⟩

theorem loadFaults_of_expand (h : Expansion.expand m text = .ok out) :
    loadFaults (some m) [] (Marker.load.scan text) = [] ∧ emptyFaults text = [] := by
  have he := Expansion.not_empty_of_expand h
  have hf := Expansion.faultless_of_expand h
  refine ⟨List.eq_nil_iff_forall_not_mem.mpr fun e hm => ?_,
    List.eq_nil_iff_forall_not_mem.mpr fun e hm => he (mem_emptyFaults_iff.mp hm).1⟩
  obtain ⟨before, o, after, hs, ho | ⟨-, matcher, hmem, hu⟩⟩ := mem_loadFaults_nil_iff.mp hm
  · exact hf.1 before o after e hs ho
  · obtain rfl := Option.mem_some.mp hmem
    exact hf.2 before o after e hs hu

theorem targetFaults_of_stamp (h : Version.stamp token text = .ok out) :
    targetFaults (Marker.noCache.scan text) = [] := by
  obtain ⟨new, hn, -⟩ := Version.stamp_eq_ok_iff.mp h
  refine List.eq_nil_iff_forall_not_mem.mpr fun e hm => ?_
  obtain ⟨o, ho, he⟩ := mem_targetFaults_iff.mp hm
  have hv := hn o.payload (Marker.payload_mem_payloads ho)
  rw [Version.version_eq_error_iff.mpr he] at hv
  cases hv

/-- A check finds no error just when both transforms succeed. Whatever fault ends one of them is
reported, with its code and its wording. -/
theorem check_agrees_with_transforms (file : RawPath) (text token : Text) (m : Matcher) :
    ((checkText file text (some m)).errors = 0 ↔
      (∃ out, Expansion.expand m text = .ok out) ∧ ∃ out, Version.stamp token text = .ok out) ∧
    (∀ e, Expansion.expand m text = .error e → (checkText file text (some m)).Reports e) ∧
    ∀ e, Version.stamp token text = .error e → (checkText file text (some m)).Reports e := by
  have hr := records_checkText file text (some m)
  refine ⟨?_, fun e h => hr.reports (mem_faults_of_expand h),
    fun e h => hr.reports (mem_faults_of_stamp (some m) h)⟩
  rw [hr.count, List.length_eq_zero_iff]
  constructor
  · intro hn
    constructor
    · cases h : Expansion.expand m text with
      | ok out => exact ⟨out, rfl⟩
      | error e =>
        have hm := mem_faults_of_expand h
        rw [hn] at hm
        cases hm
    · cases h : Version.stamp token text with
      | ok out => exact ⟨out, rfl⟩
      | error e =>
        have hm := mem_faults_of_stamp (some m) h
        rw [hn] at hm
        cases hm
  · intro h
    obtain ⟨⟨u, hu⟩, w, hw⟩ := h
    obtain ⟨hl, he⟩ := loadFaults_of_expand hu
    rw [faults, hl, he, targetFaults_of_stamp hw]
    rfl

end Transforms
end Check
end SourceMarks
