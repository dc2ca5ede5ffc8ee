import Mathlib.Algebra.GroupWithZero.Nat
import Mathlib.Data.List.Induction
import Mathlib.Data.List.Infix
import SourceMarks.Proofs.Check.Faults

/-!
The totals of a check. Main statement: they count the issues, the files and the markers, and a check
of two lists of paths is that of the one merged with that of the other.
-/
namespace SourceMarks

namespace CheckResult
variable {r s : CheckResult}

def issuesOf (severity : Severity) (r : CheckResult) : List CheckIssue :=
  r.issues.filter (·.severity = severity)

/-- The total that a result keeps for a severity. -/
def count (r : CheckResult) : Severity → Nat
  | .error => r.errors
  | .warning => r.warnings

/-- The issues of a result that do not count against it. -/
def warningIssues (r : CheckResult) : List CheckIssue := r.issuesOf .warning

/-- The totals of a result are the numbers of its issues. -/
def Tallied (r : CheckResult) : Prop := ∀ severity, r.count severity = (r.issuesOf severity).length

/-- A result comes from another one by recording faults and warnings. -/
inductive Extends (r : CheckResult) : CheckResult → Prop
  | refl : Extends r r
  | error {s : CheckResult} (e : Fault) (l : Location) : Extends r s → Extends r (s.addError e l)
  | warning {s : CheckResult} (code message : Text) (l : Location) :
    Extends r s → Extends r (s.addWarning code message l)

theorem Tallied.addError (h : r.Tallied) (e : Fault) (l : Location) : (r.addError e l).Tallied := by
  intro severity
  have hs := h severity
  cases severity <;> simpa [CheckResult.addError, count, issuesOf] using hs

theorem Tallied.addWarning (h : r.Tallied) (code message : Text) (l : Location) :
    (r.addWarning code message l).Tallied := by
  intro severity
  have hs := h severity
  cases severity <;> simpa [CheckResult.addWarning, count, issuesOf] using hs

theorem Extends.tallied (h : r.Extends s) (hr : r.Tallied) : s.Tallied := by
  induction h with
  | refl => exact hr
  | error e l _ ih => exact ih.addError e l
  | warning code message l _ ih => exact ih.addWarning code message l

theorem Extends.filesChecked (h : r.Extends s) : s.filesChecked = r.filesChecked := by
  induction h with
  | refl => rfl
  | error e l _ ih => exact ih
  | warning code message l _ ih => exact ih

/-- All results together, with sums that are kept in 64 bits. -/
def total (rs : List CheckResult) : CheckResult where
  filesChecked := (rs.map CheckResult.filesChecked).sum % Nat.pow 2 64
  annotationsChecked := (rs.map CheckResult.annotationsChecked).sum % Nat.pow 2 64
  issues := rs.flatMap CheckResult.issues
  errors := (rs.map CheckResult.errors).sum % Nat.pow 2 64
  warnings := (rs.map CheckResult.warnings).sum % Nat.pow 2 64

theorem total_concat (rs : List CheckResult) (r : CheckResult) :
    total (rs ++ [r]) = (total rs).merge r := by
  simp [total, merge, addCounts]

theorem total_append (rs ss : List CheckResult) :
    total (rs ++ ss) = (total rs).merge (total ss) := by
  simp [total, merge, addCounts, Nat.add_mod]

/-- Merging one result after the other gives their total. -/
theorem foldl_merge (rs : List CheckResult) : rs.foldl merge empty = total rs := by
  induction rs using List.reverseRecOn with
  | nil => rfl
  | append_singleton rs r ih => rw [List.foldl_append, ih, total_concat]; rfl

theorem sum_eq_length_flatMap {β : Type} {rs : List CheckResult} {count : CheckResult → Nat}
    {items : CheckResult → List β} (h : ∀ r ∈ rs, count r = (items r).length) :
    (rs.map count).sum = (rs.flatMap items).length := by
  rw [List.length_flatMap, List.map_congr_left h]

theorem issuesOf_total (severity : Severity) (rs : List CheckResult) :
    (total rs).issuesOf severity = rs.flatMap (issuesOf severity) := by
  rw [issuesOf, total, List.filter_flatMap]
  rfl

theorem count_total (severity : Severity) (rs : List CheckResult) :
    (total rs).count severity = (rs.map (count · severity)).sum % Nat.pow 2 64 := by
  cases severity <;> rfl

end CheckResult

namespace Check
open CheckResult
variable {file : RawPath} {text : Text} {m : Option Matcher} {r start : CheckResult}

section Stages

theorem extends_checkFiles (h : start.Extends r) (d : Directive) (l : Location) :
    start.Extends (checkFiles m d l r) := by
  cases m with
  | none => exact h
  | some m =>
    rw [checkFiles]
    cases d.resolve m with
    | error e => exact .error e l h
    | ok files =>
      simp only
      split
      · exact .warning _ _ l h
      · exact h

theorem extends_checkLoad {s : LoadCheck} (h : start.Extends s.result) (o : Occurrence) :
    start.Extends (checkLoad file text m s o).result := by
  unfold checkLoad
  cases Payload.parse o.payload with
  | error e => exact .error e _ h
  | ok d =>
    simp only
    split
    · exact .error _ _ h
    · exact extends_checkFiles h d _

theorem loads_checkLoad (s : LoadCheck) (o : Occurrence) :
    (checkLoad file text m s o).loads = s.loads + 1 := by
  unfold checkLoad
  cases Payload.parse o.payload with
  | error e => rfl
  | ok d =>
    simp only
    split <;> rfl

theorem foldl_checkLoad (os : List Occurrence) {s : LoadCheck} (h : start.Extends s.result) :
    start.Extends (os.foldl (checkLoad file text m) s).result ∧
      (os.foldl (checkLoad file text m) s).loads = s.loads + os.length := by
  induction os generalizing s with
  | nil => exact ⟨h, rfl⟩
  | cons o os ih =>
    have hstep : start.Extends (checkLoad file text m s o).result := extends_checkLoad h o
    obtain ⟨hextends, hloads⟩ := ih hstep
    refine ⟨hextends, ?_⟩
    rw [List.foldl_cons, hloads, loads_checkLoad, List.length_cons]
    omega

theorem extends_checkEmptyLoad {s : LoadCheck} (h : start.Extends s.result) :
    start.Extends (checkEmptyLoad file text s).result := by
  unfold checkEmptyLoad
  split
  · exact h
  · exact .error _ _ h

theorem loads_checkEmptyLoad (s : LoadCheck) : (checkEmptyLoad file text s).loads =
    s.loads + if Marker.emptyLoad <:+: text then 1 else 0 := by
  have hiff : (Marker.emptyLoadLine? text).isSome = true ↔ Marker.emptyLoad <:+: text := by
    rw [Marker.emptyLoadLine?, Option.isSome_map, Text.isSome_before?_iff]
  unfold checkEmptyLoad
  cases hl : Marker.emptyLoadLine? text with
  | none => simp [← hiff, hl]
  | some line => simp [← hiff, hl]

theorem extends_foldl_checkTarget (os : List Occurrence) (h : start.Extends r) :
    start.Extends (os.foldl (checkTarget file) r) := by
  induction os generalizing r with
  | nil => exact h
  | cons o os ih =>
    refine ih ?_
    unfold checkTarget
    split
    · exact h
    · exact .error _ _ h

theorem extends_checkDangling (h : start.Extends r) (targets : Nat) :
    start.Extends (checkDangling file text targets r) := by
  unfold checkDangling
  simp only
  split
  · exact .warning _ _ _ h
  · exact h

end Stages

/-- The number of annotations of a text: its load markers, its cache markers with a target, and one
for all empty load markers. -/
def annotations (text : Text) : Nat :=
  (Marker.load.scan text).length + (Marker.noCache.scan text).length +
    if Marker.emptyLoad <:+: text then 1 else 0

/-- The result of one file before anything is recorded. -/
def oneFile : CheckResult := { CheckResult.empty with filesChecked := 1 }

theorem tallied_oneFile : oneFile.Tallied := by
  intro severity
  cases severity <;> rfl

/-- A check records issues and counts the annotations, and does nothing else. -/
theorem exists_checkText (file : RawPath) (text : Text) (m : Option Matcher) :
    ∃ r, oneFile.Extends r ∧
      checkText file text m = { r with annotationsChecked := annotations text } := by
  let s := (Marker.load.scan text).foldl (checkLoad file text m) ⟨[], 0, oneFile⟩
  obtain ⟨hload, hloads⟩ :
      oneFile.Extends s.result ∧ s.loads = 0 + (Marker.load.scan text).length :=
    foldl_checkLoad _ .refl
  have hempty : oneFile.Extends (checkEmptyLoad file text s).result := extends_checkEmptyLoad hload
  let r := (Marker.noCache.scan text).foldl (checkTarget file) (checkEmptyLoad file text s).result
  have htarget : oneFile.Extends r := extends_foldl_checkTarget _ hempty
  have hcount : (checkEmptyLoad file text s).loads + (Marker.noCache.scan text).length =
      annotations text := by
    rw [loads_checkEmptyLoad, hloads, annotations]
    omega
  refine ⟨checkDangling file text (Marker.noCache.scan text).length r,
    extends_checkDangling htarget _, ?_⟩
  rw [← hcount]
  rfl

section Files
variable (tree : Tree) (s : Scope) (m : Matcher)

/-- The texts of those files that can be read. -/
def readable (files : List RawPath) : List Text :=
  files.filterMap fun file => (tree.readText file).toOption

theorem tallied_checkFile (file : RawPath) : (checkFile tree s m file).Tallied := by
  rw [checkFile]
  cases tree.readText file with
  | error e => exact tallied_oneFile.addError _ _
  | ok text =>
    obtain ⟨r, hr, hcheck⟩ := exists_checkText file text (if s.resolveGlobs then some m else none)
    have ht := hr.tallied tallied_oneFile
    simp only [hcheck]
    exact ht

theorem filesChecked_checkFile (file : RawPath) : (checkFile tree s m file).filesChecked = 1 := by
  rw [checkFile]
  cases tree.readText file with
  | error e => rfl
  | ok text =>
    obtain ⟨r, hr, hcheck⟩ := exists_checkText file text (if s.resolveGlobs then some m else none)
    simp only [hcheck]
    exact hr.filesChecked

theorem annotationsChecked_checkFile (file : RawPath) :
    (checkFile tree s m file).annotationsChecked =
    match tree.readText file with
    | .ok text => annotations text
    | .error _ => 0 := by
  rw [checkFile]
  cases tree.readText file with
  | error e => rfl
  | ok text =>
    obtain ⟨r, -, hcheck⟩ := exists_checkText file text (if s.resolveGlobs then some m else none)
    simp only [hcheck]

theorem sum_annotationsChecked (files : List RawPath) :
    (files.map fun file => (checkFile tree s m file).annotationsChecked).sum =
      ((readable tree files).map annotations).sum := by
  induction files with
  | nil => rfl
  | cons file files ih =>
    rw [List.map_cons, List.sum_cons, ih, annotationsChecked_checkFile]
    cases h : tree.readText file <;> simp [readable, h, Except.toOption]

/-- The files that are found under some paths, in order. -/
def discovered (paths : List RawPath) : List RawPath :=
  paths.flatMap fun p => tree.discover p s.extensions

theorem checkPaths_eq_total (paths : List RawPath) :
    checkPaths tree s m paths = total ((discovered tree s paths).map (checkFile tree s m)) := by
  rw [← foldl_merge, List.foldl_map]
  rfl

theorem tallied_of_mem {paths : List RawPath} {r : CheckResult}
    (h : r ∈ (discovered tree s paths).map (checkFile tree s m)) : r.Tallied := by
  obtain ⟨file, -, rfl⟩ := List.mem_map.mp h
  exact tallied_checkFile tree s m file

theorem count_checkPaths (severity : Severity) (paths : List RawPath) :
    (checkPaths tree s m paths).count severity =
      ((checkPaths tree s m paths).issuesOf severity).length % Nat.pow 2 64 := by
  rw [checkPaths_eq_total, issuesOf_total, count_total,
    ← sum_eq_length_flatMap fun r hr => tallied_of_mem tree s m hr severity]

theorem filesChecked_checkPaths (paths : List RawPath) : (checkPaths tree s m paths).filesChecked =
    (discovered tree s paths).length % Nat.pow 2 64 := by
  rw [checkPaths_eq_total, total, List.map_map]
  simp [Function.comp_def, filesChecked_checkFile]

theorem annotationsChecked_checkPaths (paths : List RawPath) :
    (checkPaths tree s m paths).annotationsChecked =
    ((readable tree (discovered tree s paths)).map annotations).sum % Nat.pow 2 64 := by
  rw [checkPaths_eq_total, ← sum_annotationsChecked tree s m]
  simp only [total, List.map_map]
  rfl

theorem checkPaths_append (xs ys : List RawPath) :
    checkPaths tree s m (xs ++ ys) = (checkPaths tree s m xs).merge (checkPaths tree s m ys) := by
  simp only [checkPaths_eq_total, discovered, List.flatMap_append, List.map_append, total_append]

/-- The totals of a check count its issues, its files and the annotations of those that can be read,
as long as no count exceeds 64 bits, and it passes just when no issue is an error. A check of two
lists of paths is that of the first merged with that of the second. -/
theorem checkPaths_totals :
    (∀ paths,
      let r := checkPaths tree s m paths
      let files := discovered tree s paths
      (r.issues.length < Nat.pow 2 64 →
        r.errors = r.errorIssues.length ∧ r.warnings = r.warningIssues.length ∧
        (r.passed = true ↔ ∀ i ∈ r.issues, i.severity ≠ .error)) ∧
      (files.length < Nat.pow 2 64 → r.filesChecked = files.length) ∧
      (((readable tree files).map annotations).sum < Nat.pow 2 64 →
        r.annotationsChecked = ((readable tree files).map annotations).sum)) ∧
    ∀ xs ys, checkPaths tree s m (xs ++ ys) =
      (checkPaths tree s m xs).merge (checkPaths tree s m ys) := by
  refine ⟨fun paths => ?_, checkPaths_append tree s m⟩
  intro r files
  refine ⟨fun hissues => ?_, fun hfiles => ?_, fun hsum => ?_⟩
  · have hcount : ∀ severity, r.count severity = (r.issuesOf severity).length := fun severity =>
      (count_checkPaths tree s m severity paths).trans
        (Nat.mod_eq_of_lt (Nat.lt_of_le_of_lt (List.length_filter_le _ _) hissues))
    have herrors : r.errors = r.errorIssues.length := hcount .error
    have hwarnings : r.warnings = r.warningIssues.length := hcount .warning
    refine ⟨herrors, hwarnings, ?_⟩
    rw [passed, herrors]
    simp [errorIssues]
  · exact (filesChecked_checkPaths tree s m paths).trans (Nat.mod_eq_of_lt hfiles)
  · exact (annotationsChecked_checkPaths tree s m paths).trans (Nat.mod_eq_of_lt hsum)

end Files

/-- A file with an empty load marker and a target that cannot be versioned, and a file that is no
text. -/
def torn : Tree :=
  (Tree.empty.setFile [Text.bytes ['a']] (Text.encode "//@Load()\n//@NoCache()\nx\n")).setFile
    [Text.bytes ['b']] ⟨#[0xFF]⟩

/-- Each of these is an error, and both files count. -/
theorem checkPaths_totals_torn :
    let m := Matcher.ofTree torn ⟨['.']⟩
    let r := checkPaths torn ⟨true, []⟩ m [Path.raw ⟨['a']⟩, Path.raw ⟨['b']⟩]
    let files := discovered torn ⟨true, []⟩ [Path.raw ⟨['a']⟩, Path.raw ⟨['b']⟩]
    r.errors = 3 ∧ r.errors = r.errorIssues.length ∧ r.warnings = r.warningIssues.length ∧
    (r.passed = true ↔ ∀ i ∈ r.issues, i.severity ≠ .error) ∧
    files.length = 2 ∧ r.filesChecked = files.length ∧
    ((readable torn files).map annotations).sum = 2 ∧
    r.annotationsChecked = ((readable torn files).map annotations).sum := by
  intro m r files
  have hissues : r.issues.length < Nat.pow 2 64 := by decide +kernel
  have hfiles : files.length = 2 := by decide +kernel
  have hsum : ((readable torn files).map annotations).sum = 2 := by decide +kernel
  have h := (checkPaths_totals torn ⟨true, []⟩ m).1 [Path.raw ⟨['a']⟩, Path.raw ⟨['b']⟩]
  obtain ⟨herrors, hwarnings, hpassed⟩ := h.1 hissues
  exact ⟨by decide +kernel, herrors, hwarnings, hpassed, hfiles,
    h.2.1 (by rw [hfiles]; decide), hsum, h.2.2 (by rw [hsum]; decide)⟩

end Check
end SourceMarks
