import Mathlib.Data.List.Infix
import SourceMarks.Proofs.Check.Report
import SourceMarks.Proofs.Directive.Bases
import SourceMarks.Proofs.Marker.Greedy
import SourceMarks.Proofs.Matcher.Diagnosis

/-!
The places that a check gives. Main statement: the issues of load markers are listed from the
beginning of the text to its end, each at the start of its own marker, and each target that cannot
be versioned is at its own line.
-/
namespace SourceMarks
variable {text : Text} {o : Occurrence}

/-- A location with a column, in front of another one. -/
def Location.Before (a b : Location) : Prop :=
  ∃ i ∈ a.column, ∃ j ∈ b.column, Text.Earlier (a.line, i) (b.line, j)

/-- Where the payload begins with which an occurrence ends. -/
def Occurrence.payloadStart (o : Occurrence) : Nat := o.stop - o.payload.byteLength

namespace Marker

theorem greedy_scan (m : Marker) (text : Text) : m.Greedy text 0 (m.scan text) :=
  greedy_occurrencesFrom [] text

theorem exists_isOccurrence {m : Marker} (h : o ∈ m.scan text) :
    ∃ before f, m.IsOccurrence text before f o :=
  (greedy_scan m text).isOccurrence h

theorem pairwise_scan (m : Marker) (text : Text) :
    (m.scan text).Pairwise fun a b => a.start < b.start := by
  refine (greedy_scan m text).pairwise.imp_of_mem fun ha _ hle => ?_
  exact Nat.lt_of_lt_of_le ((greedy_scan m text).start_lt_stop ha).2 hle

theorem isBoundary_start {m : Marker} (h : o ∈ m.scan text) : text.IsBoundary o.start := by
  obtain ⟨before, f, ho⟩ := exists_isOccurrence h
  obtain ⟨after, rfl, -⟩ := ho.stands
  exact ho.start ▸ Text.isBoundary_byteLength before _

theorem line_eq_lineOf {m : Marker} (h : o ∈ m.scan text) : o.line = text.lineOf o.start := by
  obtain ⟨before, f, ho⟩ := exists_isOccurrence h
  exact ho.line

/-- A cache marker and the line break behind it, in front of the target. -/
theorem IsCache.exists_head {f : Form} (h : IsCache f) :
    ∃ head, f.written = head ++ f.payload ∧ head.count '\n' = 1 ∧ head.getLast? = some '\n' := by
  cases h.written with
  | inl hw => exact ⟨bareNoCache ++ ['\n'], by simp [hw], by decide, by decide⟩
  | inr hw => exact ⟨bareNoCache ++ ['\r', '\n'], by simp [hw], by decide, by decide⟩

/-- The target of a cache marker begins the line behind the marker. -/
theorem place_payloadStart (h : o ∈ noCache.scan text) :
    text.IsBoundary o.payloadStart ∧ o.payload <+: text.behind o.payloadStart ∧
      text.place o.payloadStart = (text.lineOf o.start + 1, 1) := by
  obtain ⟨before, f, ho⟩ := exists_isOccurrence h
  obtain ⟨after, ht, hf, -⟩ := ho.stands
  obtain ⟨head, hw, hcount, hlast⟩ := hf.exists_head
  have htext : text = (before ++ head) ++ (f.payload ++ after) := by simp [ht, hw]
  have hstart : o.payloadStart = (before ++ head).byteLength := by
    rw [Occurrence.payloadStart, ho.stop, ho.payload, hw, ← List.append_assoc,
      Text.byteLength_append (before ++ head), Nat.add_sub_cancel]
  have hline : text.lineOf o.start = before.lineAfter := by
    rw [ho.start, ht, Text.lineOf, Text.upTo_byteLength]
  obtain ⟨init, hinit⟩ := List.getLast?_eq_some_iff.mp hlast
  have hcolumn : (before ++ head).columnAfter = 1 := by simp [hinit, Text.columnAfter]
  refine ⟨?_, ?_, ?_⟩
  · rw [hstart, htext]
    exact Text.isBoundary_byteLength _ _
  · rw [hstart, htext, Text.behind_byteLength, ho.payload]
    exact List.prefix_append f.payload after
  · rw [hline, hstart, htext, Text.place_byteLength, Text.lineAfter_append, hcount, hcolumn]

end Marker

namespace Check
variable (file : RawPath) (text : Text) (m : Option Matcher)

/-- What a check says of the files of a directive, if anything. -/
def fileIssue? (m : Option Matcher) (d : Directive) (l : Location) : Option CheckIssue :=
  m.bind fun matcher =>
    match d.resolve matcher with
    | .ok files =>
      if files.isEmpty then
        some ⟨.warning, "W001", "Label `".toList ++ d.label ++ "` matches no files".toList, l, none⟩
      else none
    | .error e => some (e.issue l)

/-- What a check says of a load marker that stands behind others, if anything. -/
def loadIssue? (before : List Occurrence) (o : Occurrence) : Option CheckIssue :=
  match offence? before o with
  | some e => some (e.issue (loadPlace file text o))
  | none => (Payload.parse o.payload).toOption.bind fun d => fileIssue? m d (loadPlace file text o)

/-- What a check says of some load markers, given the markers before them. -/
def markedIssues (marked : List (List Occurrence × Occurrence)) : List CheckIssue :=
  marked.filterMap fun (before, o) => loadIssue? file text m before o

/-- What a check says of the load markers of a text. -/
def loadIssues : List CheckIssue :=
  markedIssues file text m ((Marker.load.scan text).inits.zip (Marker.load.scan text))

section Passes
variable {s : LoadCheck} {prior : List Occurrence}

theorem issues_checkFiles (d : Directive) (l : Location) (r : CheckResult) :
    (checkFiles m d l r).issues = r.issues ++ (fileIssue? m d l).toList := by
  cases m with
  | none => exact (List.append_nil r.issues).symm
  | some m =>
    simp only [checkFiles, fileIssue?, Option.bind_some]
    cases d.resolve m with
    | error e => rfl
    | ok files =>
      simp only
      split
      · rfl
      · exact (List.append_nil r.issues).symm

theorem issues_checkLoad (h : ∀ l, l ∈ s.labels ↔ Taken prior l) (o : Occurrence) :
    (checkLoad file text m s o).result.issues =
      s.result.issues ++ (loadIssue? file text m prior o).toList := by
  unfold checkLoad loadIssue? offence?
  cases Payload.parse o.payload with
  | error e => rfl
  | ok d =>
    by_cases hd : Taken prior d.label
    · simp [h, hd, CheckResult.addError, Fault.issue, loadPlace]
    · simp [h, hd, issues_checkFiles, loadPlace, Except.toOption]

theorem markedIssues_cons (before : List Occurrence) (o : Occurrence)
    (marked : List (List Occurrence × Occurrence)) :
    markedIssues file text m ((before, o) :: marked) =
      (loadIssue? file text m before o).toList ++ markedIssues file text m marked := by
  rw [markedIssues, markedIssues, List.filterMap_cons]
  cases h : loadIssue? file text m before o <;> simp [h]

/-- A pass adds what there is to say of each marker, given those it has gone through. -/
theorem issues_foldl_checkLoad (h : ∀ l, l ∈ s.labels ↔ Taken prior l) (os : List Occurrence) :
    (os.foldl (checkLoad file text m) s).result.issues =
      s.result.issues ++ markedIssues file text m ((os.inits.map (prior ++ ·)).zip os) := by
  induction os generalizing s prior with
  | nil => simp [markedIssues]
  | cons o os ih =>
    have hlabels : ∀ l, l ∈ (checkLoad file text m s o).labels ↔ Taken (prior ++ [o]) l := by
      rw [labels_checkLoad]
      exact mem_labelsAfter_iff h
    have hinits : (o :: os).inits.map (prior ++ ·) = prior :: os.inits.map (prior ++ [o] ++ ·) := by
      simp [Function.comp_def]
    rw [List.foldl_cons, ih hlabels, issues_checkLoad file text m h, hinits, List.zip_cons_cons,
      markedIssues_cons, List.append_assoc]

theorem issues_checkEmptyLoad (s : LoadCheck) : (checkEmptyLoad file text s).result.issues =
    s.result.issues ++ (emptyErrors file text).take 1 := by
  rw [← issues_emptyFindings, checkEmptyLoad, emptyFindings]
  cases Marker.emptyLoadLine? text <;> simp [CheckResult.addError, Fault.issue, linePlace]

theorem issues_foldl_checkTarget (os : List Occurrence) (r : CheckResult) :
    (os.foldl (checkTarget file) r).issues =
      r.issues ++ (targetFindings file os).map fun f => f.1.issue f.2 := by
  induction os generalizing r with
  | nil => simp [targetFindings]
  | cons o os ih =>
    rw [List.foldl_cons, ih, checkTarget, targetFindings]
    cases Version.classify o.payload <;> simp [CheckResult.addError, Fault.issue, linePlace]

theorem issues_checkDangling (targets : Nat) (r : CheckResult) :
    ∃ dangling, (checkDangling file text targets r).issues = r.issues ++ dangling ∧
      ∀ i ∈ dangling, i.code = "W002".toList := by
  simp only [checkDangling]
  split
  · exact ⟨_, rfl, by simp⟩
  · exact ⟨[], by simp, by simp⟩

end Passes

/-- The issues of a check: those of load markers, of an empty load marker, of targets, and of
markers without a target. -/
theorem issues_checkText : ∃ dangling, (checkText file text m).issues =
    loadIssues file text m ++ (emptyErrors file text).take 1 ++ targetErrors file text ++ dangling ∧
      ∀ i ∈ dangling, i.code = "W002".toList := by
  have hload := @issues_foldl_checkLoad file text m
    ⟨[], 0, { CheckResult.empty with filesChecked := 1 }⟩ [] (by simp [Taken])
      (Marker.load.scan text)
  have hids : (Marker.load.scan text).inits.map ([] ++ ·) = (Marker.load.scan text).inits := by simp
  rw [hids] at hload
  rw [checkText]
  obtain ⟨dangling, hd, hcode⟩ := issues_checkDangling file text (Marker.noCache.scan text).length
    ((Marker.noCache.scan text).foldl (checkTarget file) (checkEmptyLoad file text
      ((Marker.load.scan text).foldl (checkLoad file text m)
        ⟨[], 0, { CheckResult.empty with filesChecked := 1 }⟩)).result)
  refine ⟨dangling, hd.trans ?_, hcode⟩
  rw [issues_foldl_checkTarget, issues_checkEmptyLoad, hload, issues_targetFindings]
  rfl

section Located
variable {file : RawPath} {text : Text} {m : Option Matcher} {before : List Occurrence}
  {o : Occurrence}
  {i : CheckIssue} {d : Directive} {l : Location}

theorem location_of_fileIssue? (h : fileIssue? m d l = some i) : i.location = l := by
  obtain ⟨matcher, -, h⟩ := Option.bind_eq_some_iff.mp h
  cases hr : d.resolve matcher with
  | error e =>
    rw [hr] at h
    exact Option.some.inj h ▸ rfl
  | ok files =>
    rw [hr] at h
    simp only at h
    split at h
    · exact Option.some.inj h ▸ rfl
    · cases h

/-- An issue of a load marker is at the place of that marker. -/
theorem location_of_loadIssue? (h : loadIssue? file text m before o = some i) :
    i.location = loadPlace file text o := by
  rw [loadIssue?] at h
  split at h
  · exact Option.some.inj h ▸ rfl
  · obtain ⟨d, -, h⟩ := Option.bind_eq_some_iff.mp h
    exact location_of_fileIssue? h

theorem exists_of_mem_zip_inits {os : List Occurrence} (h : (before, o) ∈ os.inits.zip os) :
    ∃ after, os = before ++ o :: after := by
  induction os generalizing before with
  | nil => simp at h
  | cons x os ih =>
    rw [List.inits_cons, List.zip_cons_cons] at h
    cases List.mem_cons.mp h with
    | inl h =>
      cases h
      exact ⟨os, rfl⟩
    | inr h =>
      obtain ⟨⟨before', o'⟩, hm, he⟩ : ∃ p ∈ os.inits.zip os, (x :: p.1, p.2) = (before, o) := by
        rw [List.zip_map_left, List.mem_map] at h
        exact h
      cases he
      obtain ⟨after, rfl⟩ := ih hm
      exact ⟨after, rfl⟩

theorem mem_loadIssues (h : i ∈ loadIssues file text m) : ∃ before o after,
    Marker.load.scan text = before ++ o :: after ∧ loadIssue? file text m before o = some i := by
  obtain ⟨⟨before, o⟩, hm, hi⟩ := List.mem_filterMap.mp h
  obtain ⟨after, hs⟩ := exists_of_mem_zip_inits hm
  exact ⟨before, o, after, hs, hi⟩

theorem loadPlace_eq (h : o ∈ Marker.load.scan text) :
    loadPlace file text o = ⟨file, text.lineOf o.start, some (text.columnOf o.start)⟩ := by
  rw [loadPlace, Marker.line_eq_lineOf h]

theorem before_loadPlace {a b : Occurrence} (ha : a ∈ Marker.load.scan text)
    (hb : b ∈ Marker.load.scan text) (h : a.start < b.start) :
    (loadPlace file text a).Before (loadPlace file text b) := by
  rw [loadPlace_eq ha, loadPlace_eq hb]
  have hplace := Text.earlier_place (Marker.isBoundary_start ha) (Marker.isBoundary_start hb) h
  exact ⟨_, rfl, _, rfl, hplace⟩

theorem pairwise_loadIssues (file : RawPath) (text : Text) (m : Option Matcher) :
    (loadIssues file text m).Pairwise fun i j => i.location.Before j.location := by
  have hsnd : ((Marker.load.scan text).inits.zip (Marker.load.scan text)).map Prod.snd =
      Marker.load.scan text := List.map_snd_zip (by simp)
  have hstarts := Marker.pairwise_scan .load text
  rw [← hsnd, List.pairwise_map] at hstarts
  refine List.pairwise_filterMap.mpr (hstarts.imp_of_mem fun {a b} ha hb hlt i hi j hj => ?_)
  rw [location_of_loadIssue? hi, location_of_loadIssue? hj]
  have hscan : ∀ p ∈ (Marker.load.scan text).inits.zip (Marker.load.scan text),
      p.2 ∈ Marker.load.scan text := fun p hp => (List.of_mem_zip hp).2
  exact before_loadPlace (hscan a ha) (hscan b hb) hlt

/-- The offence of a load marker is not one of targets. -/
theorem code_of_offence? {e : Fault} (h : offence? before o = some e) : e.code ≠ "E006".toList := by
  rw [offence?] at h
  split at h
  · next e' he =>
    have hcode := code_of_parse he
    rw [Option.some.inj h] at hcode
    intro hc
    exact absurd (hc ▸ hcode) (by decide)
  · split at h
    · have hne : "E004".toList ≠ "E006".toList := by decide
      exact Option.some.inj h ▸ hne
    · cases h

theorem exists_of_code_fileIssue? (h : fileIssue? m d l = some i) (hcode : i.code = "E006".toList) :
    ∃ matcher ∈ m, ∃ patterns e, matcher.resolve patterns = .error e ∧ e.code = "E006".toList := by
  obtain ⟨matcher, hm, h⟩ := Option.bind_eq_some_iff.mp h
  cases hr : d.resolve matcher with
  | error e =>
    rw [hr] at h
    rw [← Option.some.inj h] at hcode
    exact ⟨matcher, hm, d.globs, e, Directive.resolve_eq_error_iff.mp hr, hcode⟩
  | ok files =>
    rw [hr] at h
    simp only at h
    split at h
    · have hne : "W001".toList ≠ "E006".toList := by decide
      rw [← Option.some.inj h] at hcode
      exact absurd hcode hne
    · cases h

/-- What is said of a load marker has the code of a target only if a matcher fails with it. -/
theorem exists_of_code_loadIssue? (h : loadIssue? file text m before o = some i)
    (hcode : i.code = "E006".toList) :
    ∃ matcher ∈ m, ∃ patterns e, matcher.resolve patterns = .error e ∧ e.code = "E006".toList := by
  rw [loadIssue?] at h
  split at h
  · next e he =>
    rw [← Option.some.inj h] at hcode
    exact absurd hcode (code_of_offence? he)
  · obtain ⟨d, -, h⟩ := Option.bind_eq_some_iff.mp h
    exact exists_of_code_fileIssue? h hcode

theorem mem_targetErrors (h : i ∈ targetErrors file text) : ∃ o ∈ Marker.noCache.scan text, ∃ e,
    Version.classify o.payload = .error e ∧
      i = e.issue (linePlace file (text.lineOf o.payloadStart)) := by
  obtain ⟨o, ho, hi⟩ := List.mem_filterMap.mp h
  have hline := congrArg Prod.fst (Marker.place_payloadStart ho).2.2
  change text.lineOf o.payloadStart = text.lineOf o.start + 1 at hline
  rw [← Marker.line_eq_lineOf ho] at hline
  split at hi
  · cases hi
  · next e he => exact ⟨o, ho, e, he, hline ▸ (Option.some.inj hi).symm⟩

/-- An issue with the code of a target is one of a target, or a matcher fails with that code. -/
theorem mem_targetErrors_or (hi : i ∈ (checkText file text m).issues)
    (hcode : i.code = "E006".toList) :
    i ∈ targetErrors file text ∨
      ∃ matcher ∈ m, ∃ patterns e,
        matcher.resolve patterns = .error e ∧ e.code = "E006".toList := by
  obtain ⟨dangling, hissues, hdangling⟩ := issues_checkText file text m
  rw [hissues, List.mem_append, List.mem_append, List.mem_append] at hi
  obtain ((hload | hempty) | htarget) | hd := hi
  · obtain ⟨before, o, after, -, ho⟩ := mem_loadIssues hload
    exact Or.inr (exists_of_code_loadIssue? ho hcode)
  · obtain ⟨front, -, rfl⟩ := List.mem_map.mp (List.mem_of_mem_take hempty)
    have hne : "E005".toList ≠ "E006".toList := by decide
    exact absurd hcode hne
  · exact Or.inl htarget
  · rw [hdangling i hd] at hcode
    exact absurd hcode (by decide)

end Located

/-- Places go on with offsets and determine them. A check lists the issues of load markers by their
places, each at the start of its own marker. Each target that cannot be versioned is at its own
line, the one behind its marker, and no other issue has the code of such a target, unless a matcher
fails with it, which that of a tree never does. -/
theorem issues_located (file : RawPath) (text : Text) (m : Option Matcher) :
    (∀ a b, text.IsBoundary a → text.IsBoundary b → a < b →
      Text.Earlier (text.place a) (text.place b)) ∧
    (∀ a b, text.IsBoundary a → text.IsBoundary b → text.place a = text.place b → a = b) ∧
    (∃ dangling, (checkText file text m).issues =
        loadIssues file text m ++ (emptyErrors file text).take 1 ++
          targetErrors file text ++ dangling ∧
      ∀ i ∈ dangling, i.code = "W002".toList) ∧
    (loadIssues file text m).Pairwise (fun i j => i.location.Before j.location) ∧
    (∀ i ∈ loadIssues file text m, ∃ before o after, Marker.load.scan text = before ++ o :: after ∧
      loadIssue? file text m before o = some i ∧ text.IsBoundary o.start ∧
      i.location = ⟨file, text.lineOf o.start, some (text.columnOf o.start)⟩) ∧
    (∀ i ∈ targetErrors file text, i.code = "E006".toList ∧ ∃ o ∈ Marker.noCache.scan text,
      i.location = ⟨file, text.lineOf o.payloadStart, none⟩ ∧
      text.IsBoundary o.payloadStart ∧ o.payload <+: text.behind o.payloadStart ∧
      text.place o.payloadStart = (text.lineOf o.start + 1, 1)) ∧
    (∀ i ∈ (checkText file text m).issues, i.code = "E006".toList → i ∈ targetErrors file text ∨
      ∃ matcher ∈ m, ∃ patterns e, matcher.resolve patterns = .error e ∧ e.code = "E006".toList) ∧
    ((∀ matcher ∈ m, ∃ tree root, matcher = .ofTree tree root) →
      ∀ i ∈ (checkText file text m).issues,
        i.code = "E006".toList → i ∈ targetErrors file text) := by
  refine ⟨fun a b => Text.earlier_place, fun a b => Text.place_inj, issues_checkText file text m,
    pairwise_loadIssues file text m, fun i hi => ?_, fun i hi => ?_, fun i => mem_targetErrors_or,
    fun hm i hi hcode => ?_⟩
  · obtain ⟨before, o, after, hs, ho⟩ := mem_loadIssues hi
    have hscan : o ∈ Marker.load.scan text := by simp [hs]
    have hplace := (location_of_loadIssue? ho).trans (loadPlace_eq hscan)
    exact ⟨before, o, after, hs, ho, Marker.isBoundary_start hscan, hplace⟩
  · obtain ⟨o, ho, e, he, rfl⟩ := mem_targetErrors hi
    obtain ⟨hboundary, hpayload, hplace⟩ := Marker.place_payloadStart ho
    exact ⟨code_of_classify he, o, ho, rfl, hboundary, hpayload, hplace⟩
  · obtain htarget | ⟨matcher, hmatcher, patterns, e, he, hc⟩ := mem_targetErrors_or hi hcode
    · exact htarget
    · obtain ⟨tree, root, rfl⟩ := hm matcher hmatcher
      obtain ⟨p, cause, rfl⟩ := Matcher.isPatternFault_resolve he
      have hne : "E008".toList ≠ "E006".toList := by decide
      exact absurd hc hne

end Check
end SourceMarks
