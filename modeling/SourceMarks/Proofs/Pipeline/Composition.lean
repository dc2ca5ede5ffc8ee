import SourceMarks.Pipeline.Chain
import SourceMarks.Proofs.Outcome
import Mathlib.Data.List.Forall2

/-!
Chains as wholes. Main statement: a chain does to a file what its parts do one after the other, and
a batch is processed file by file.
-/
namespace SourceMarks.Pipeline
variable {c : Chain} {f : SourceFile} {bytes : ByteArray} {text : Text}

section Files

theorem apply_append (a b : Chain) (text : Text) : (a ++ b).apply text = a.apply text >>= b.apply :=
  List.foldlM_append

theorem process_undecoded (c : Chain) (h : f.contents = .buffer bytes)
    (ht : Text.decode? bytes = none) :
    c.process f = .error (.notText f.path) := by
  simp only [Chain.process, h, ht]

theorem process_decoded (c : Chain) (h : f.contents = .buffer bytes)
    (ht : Text.decode? bytes = some text) :
    c.process f = (c.apply text).map fun new =>
      { f with contents := .buffer (Text.encode new) } := by
  simp only [Chain.process, h, ht]

theorem process_encoded (c : Chain) (h : f.contents = .buffer (Text.encode text)) :
    c.process f = (c.apply text).map fun new => { f with contents := .buffer (Text.encode new) } :=
  process_decoded c h (Text.decode?_encode text)

/-- The text that the first chain leaves is encoded, and the second chain decodes the same text
again. -/
theorem process_append (a b : Chain) (f : SourceFile) :
    (a ++ b).process f = a.process f >>= b.process := by
  cases hc : f.contents with
  | null => simp only [Chain.process, hc, bind, Except.bind]
  | stream => simp only [Chain.process, hc, bind, Except.bind]
  | other => simp only [Chain.process, hc, bind, Except.bind]
  | buffer bytes =>
    cases ht : Text.decode? bytes with
    | none =>
      rw [process_undecoded (a ++ b) hc ht, process_undecoded a hc ht]
      rfl
    | some text =>
      rw [process_decoded (a ++ b) hc ht, process_decoded a hc ht, apply_append]
      cases hu : a.apply text with
      | error e => rfl
      | ok u =>
        have hnext := process_encoded (f := { f with contents := .buffer (Text.encode u) }) b rfl
        exact hnext.symm

end Files

section Batches

theorem run_eq (c : Chain) (files : List SourceFile) :
    c.run files = ⟨c.name, files.filterMap fun f => (c.process f).toOption,
      files.filterMap fun f =>
        match c.process f with
        | .ok _ => none
        | .error e => some (f.path, e)⟩ := by
  induction files using List.reverseRecOn with
  | nil => rfl
  | append_singleton files f ih =>
    rw [Chain.run, List.foldl_append]
    change (c.run files).record f.path (c.process f) = _
    rw [ih]
    cases hp : c.process f <;> simp [RunReport.record, hp, Except.toOption]

theorem run_append (c : Chain) (xs ys : List SourceFile) :
    (c.run (xs ++ ys)).files = (c.run xs).files ++ (c.run ys).files ∧
      (c.run (xs ++ ys)).failures = (c.run xs).failures ++ (c.run ys).failures := by
  simp only [run_eq, List.filterMap_append, and_self]

/-- The files that come through a chain, in order, are what it makes of the files that it succeeds
on. -/
theorem forall₂_files (c : Chain) (files : List SourceFile) :
    List.Forall₂ (fun f g => c.process f = .ok g) (files.filter fun f => (c.process f).isOk)
      (c.run files).files := by
  rw [run_eq]
  induction files with
  | nil => exact .nil
  | cons f files ih =>
    cases hp : c.process f with
    | ok g => simpa [hp, Except.isOk, Except.toBool, Except.toOption] using ih
    | error e => simpa [hp, Except.isOk, Except.toBool, Except.toOption] using ih

/-- The failures of a chain, in order, are those of the other files, each under its path. -/
theorem forall₂_failures (c : Chain) (files : List SourceFile) :
    List.Forall₂ (fun f failure => failure.1 = f.path ∧ c.process f = .error failure.2)
      (files.filter fun f => !(c.process f).isOk) (c.run files).failures := by
  rw [run_eq]
  induction files with
  | nil => exact .nil
  | cons f files ih =>
    cases hp : c.process f with
    | ok g => simpa [hp, Except.isOk, Except.toBool] using ih
    | error e => simpa [hp, Except.isOk, Except.toBool] using ih

/-- A chain made of two does what the second does to the outcome of the first, faults included, and
files without text come back as they are. A batch is processed file by file: its report is those of
its parts one behind the other, and every file is either among the files or, with its own path and
fault, among the failures, in the order of the batch. -/
theorem chains_compose :
    (∀ (a b : Chain) (f : SourceFile), (a ++ b).process f = a.process f >>= b.process) ∧
    (∀ (c : Chain) (path base : RawPath), c.process ⟨path, base, .null⟩ = .ok ⟨path, base, .null⟩ ∧
      c.process ⟨path, base, .other⟩ = .ok ⟨path, base, .other⟩) ∧
    (∀ (c : Chain) (xs ys : List SourceFile),
      (c.run (xs ++ ys)).files = (c.run xs).files ++ (c.run ys).files ∧
        (c.run (xs ++ ys)).failures = (c.run xs).failures ++ (c.run ys).failures) ∧
    ∀ (c : Chain) (files : List SourceFile),
      List.Forall₂ (fun f g => c.process f = .ok g) (files.filter fun f => (c.process f).isOk)
        (c.run files).files ∧
      List.Forall₂ (fun f failure => failure.1 = f.path ∧ c.process f = .error failure.2)
        (files.filter fun f => !(c.process f).isOk) (c.run files).failures := by
  refine ⟨process_append, fun c path base => ⟨rfl, rfl⟩, run_append, fun c files => ?_⟩
  exact ⟨forall₂_files c files, forall₂_failures c files⟩

end Batches

end SourceMarks.Pipeline
