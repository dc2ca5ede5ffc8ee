import SourceMarks.CommandLine.Run
import SourceMarks.Proofs.Outcome
import SourceMarks.Proofs.Pipeline.Composition
import SourceMarks.Proofs.Pipeline.Written
import SourceMarks.Proofs.Tree.Files

/-!
The files of a batch run, and what becomes of each by itself: the bytes to write, or the fault, both
taken from the tree as it was before the run.
-/
namespace SourceMarks
variable {tree : Tree} {p input : RawPath} {extensions : List Text} {chain : Chain} {b : ByteArray}
  {e : Fault}

/-- A file to process, and the folder it is relative to. -/
structure Job where
  path : RawPath
  base : RawPath

namespace Job
variable {j : Job}

/-- The file with some bytes. -/
def file (j : Job) (b : ByteArray) : SourceFile := ⟨j.path, j.base, .buffer b⟩

def relative (j : Job) : RawPath := SourceFile.relative ⟨j.path, j.base, .null⟩

def destination (j : Job) (out : Option RawPath) : RawPath :=
  SourceFile.destination ⟨j.path, j.base, .null⟩ out

/-- The file is written in its place, or under names of its own below another folder. -/
def Placed (j : Job) : (out : Option RawPath) → Prop
  | none => j.destination none = j.path
  | some dir => ∃ names, names ≠ [] ∧ (∀ n ∈ names, IsName n) ∧
      j.destination (some dir) = dir.join (.ofParts names)

/-- The bytes that a chain of transforms makes of the file in a tree. -/
def made (tree : Tree) (chain : Chain) (j : Job) : Except Fault ByteArray := do
  let bytes ← (tree.read j.path).mapError (.unreadable j.path)
  match Text.decode? bytes with
  | none => .error (.notText j.path)
  | some text => (chain.apply text).map Text.encode

/-- The file as it is in a tree. -/
def source (tree : Tree) (j : Job) : Except Fault SourceFile :=
  ((tree.read j.path).mapError (.unreadable j.path)).map j.file

theorem made_eq (tree : Tree) (chain : Chain) (j : Job) :
    (j.made tree chain).map j.file = j.source tree >>= chain.process := by
  rw [made, source]
  cases tree.read j.path with
  | error e => rfl
  | ok bytes =>
    change (match Text.decode? bytes with
      | none => .error (.notText j.path)
      | some text => (chain.apply text).map Text.encode : Except Fault ByteArray).map j.file =
      chain.process (j.file bytes)
    rw [Chain.process]
    change _ = match Text.decode? bytes with
      | none => _
      | some text => _
    cases Text.decode? bytes with
    | none => rfl
    | some text =>
      change ((chain.apply text).map Text.encode).map j.file = _
      cases hu : chain.apply text with
      | error e => simp [hu, Except.map]
      | ok u => simp [hu, Except.map, file]

theorem made_eq_ok_iff : j.made tree chain = .ok b ↔ ∃ q bytes text new,
    tree.Leads j.path q ∧ tree.node? q = some (.file bytes) ∧ Text.decode? bytes = some text ∧
      chain.apply text = .ok new ∧ b = Text.encode new := by
  rw [made, bind_eq_ok_iff]
  constructor
  · rintro ⟨bytes, hb, h⟩
    obtain ⟨q, hl, hq⟩ := Tree.read_eq_ok_iff.mp (mapError_eq_ok_iff.mp hb)
    split at h
    · cases h
    · next text ht =>
      obtain ⟨new, hu, hb⟩ := map_eq_ok_iff.mp h
      exact ⟨q, bytes, text, new, hl, hq, ht, hu, hb.symm⟩
  · rintro ⟨q, bytes, text, new, hl, hq, ht, hu, rfl⟩
    refine ⟨bytes, mapError_eq_ok_iff.mpr (Tree.read_eq_ok_iff.mpr ⟨q, hl, hq⟩), ?_⟩
    simp [ht, hu, Except.map]

/-- What is made of a file does not depend on how its path is written. -/
theorem made_unique {j' : Job} {b' : ByteArray} {q : List RawText} (h : j.made tree chain = .ok b)
    (h' : j'.made tree chain = .ok b') (hl : tree.Leads j.path q) (hl' : tree.Leads j'.path q) :
    b = b' := by
  obtain ⟨r, bytes, text, new, hr, hq, ht, hu, rfl⟩ := made_eq_ok_iff.mp h
  obtain ⟨r', bytes', text', new', hr', hq', ht', hu', rfl⟩ := made_eq_ok_iff.mp h'
  obtain rfl := hr.unique hl
  obtain rfl := hr'.unique hl'
  rw [hq] at hq'
  cases hq'
  rw [ht] at ht'
  cases ht'
  rw [hu] at hu'
  cases hu'
  rfl

end Job

namespace CommandLine

/-- The files under some paths, with the folder that each is relative to. -/
def jobs (tree : Tree) (extensions : List Text) (inputs : List RawPath) : List Job :=
  inputs.flatMap fun input =>
    (tree.discover input extensions).map fun p => ⟨p, baseOf tree input⟩

theorem sources_eq (tree : Tree) (extensions : List Text) (inputs : List RawPath) :
    sources tree extensions inputs =
      (jobs tree extensions inputs).map fun j => (j.path, j.source tree) := by
  rw [sources, jobs, List.map_flatMap]
  congr
  funext input
  rw [List.map_map]
  congr
  funext p
  simp only [Function.comp_apply, Job.source, SourceFile.read]
  cases tree.read p <;> rfl

theorem mem_jobs {inputs : List RawPath} {j : Job} : j ∈ jobs tree extensions inputs ↔
    ∃ input ∈ inputs, j.path ∈ tree.discover input extensions ∧ j.base = baseOf tree input := by
  rw [jobs, List.mem_flatMap]
  refine exists_congr fun input => and_congr_right fun _ => ?_
  rw [List.mem_map]
  constructor
  · rintro ⟨p, hp, rfl⟩
    exact ⟨hp, rfl⟩
  · rintro ⟨hp, hb⟩
    exact ⟨j.path, hp, by rw [← hb]⟩

/-- The relative path of a file is made of names only. -/
theorem relative_of_mem_jobs {inputs : List RawPath} {j : Job}
    (h : j ∈ jobs tree extensions inputs) :
    ∃ names, names ≠ [] ∧ (∀ n ∈ names, IsName n) ∧ j.relative = .ofParts names := by
  obtain ⟨input, -, hp, hb⟩ := mem_jobs.mp h
  rw [Job.relative, hb, baseOf]
  obtain ⟨hf, he⟩ | ⟨q, inner, hl, hg, names, hn, he⟩ := Tree.mem_discover hp
  · obtain ⟨q, b, hl, hq⟩ := Tree.isFile_iff.mp hf
    have hfolder : ¬ tree.isFolder input = true := by
      rw [Tree.isFolder_iff_leads hl, hq]
      simp
    obtain ⟨n, hn, hr⟩ := SourceFile.relative_parent (c := .null) hl hq
    rw [he, if_neg hfolder]
    exact ⟨[n], by simp, by simpa using hn, hr⟩
  · have hproper := Listing.proper_of_get? tree.proper hg
    have hnames := (Listing.mem_files hproper hn).2
    have hne := Listing.ne_nil_of_mem_files hproper hn
    rw [he, if_pos (Tree.isFolder_of_get? hl hg)]
    exact ⟨names, hne, hnames, SourceFile.relative_join hnames hne (Tree.text_ne_nil_of_leads hl)⟩

theorem placed_of_mem_jobs {inputs : List RawPath} {j : Job} (h : j ∈ jobs tree extensions inputs)
    (out : Option RawPath) : j.Placed out := by
  cases out with
  | none => rfl
  | some dir =>
    obtain ⟨names, hne, hn, hr⟩ := relative_of_mem_jobs h
    exact ⟨names, hne, hn, congrArg dir.join hr⟩

/-- A file cannot be read, or the chain fails on it, or it is made. -/
theorem made_cases (tree : Tree) (chain : Chain) (j : Job) :
    (∃ e, j.source tree = .error e ∧ j.made tree chain = .error e) ∨
    (∃ f e, j.source tree = .ok f ∧ f.path = j.path ∧ chain.process f = .error e ∧
      j.made tree chain = .error e) ∨
    ∃ f b, j.source tree = .ok f ∧ chain.process f = .ok (j.file b) ∧
      j.made tree chain = .ok b := by
  have hm := j.made_eq tree chain
  cases hs : j.source tree with
  | error e =>
    rw [hs] at hm
    cases hmade : j.made tree chain with
    | error e' =>
      rw [hmade] at hm
      cases hm
      exact Or.inl ⟨e, rfl, rfl⟩
    | ok b =>
      rw [hmade] at hm
      cases hm
  | ok f =>
    right
    have hf : f.path = j.path := by
      obtain ⟨bytes, -, rfl⟩ := map_eq_ok_iff.mp hs
      rfl
    rw [hs] at hm
    change _ = chain.process f at hm
    cases hmade : j.made tree chain with
    | error e =>
      rw [hmade] at hm
      exact Or.inl ⟨f, e, rfl, hf, hm.symm, rfl⟩
    | ok b =>
      rw [hmade] at hm
      exact Or.inr ⟨f, b, rfl, hm.symm, rfl⟩

/-- The files that are made, with their bytes. -/
def ready (tree : Tree) (chain : Chain) (js : List Job) : List (Job × ByteArray) :=
  js.filterMap fun j => (j.made tree chain).toOption.map fun b => (j, b)

/-- The files that cannot be read. -/
def unread (tree : Tree) (js : List Job) : List (Job × Fault) :=
  js.filterMap fun j =>
    match j.source tree with
    | .ok _ => none
    | .error e => some (j, e)

/-- The files that a chain fails on. -/
def refused (tree : Tree) (chain : Chain) (js : List Job) : List (Job × Fault) :=
  js.filterMap fun j =>
    match j.source tree with
    | .ok f =>
      match chain.process f with
      | .ok _ => none
      | .error e => some (j, e)
    | .error _ => none

/-- A failure as it is reported. -/
def failure (f : Job × Fault) : RawPath × Fault := (f.1.path, f.2)

theorem sublist_ready (tree : Tree) (chain : Chain) (js : List Job) :
    ((ready tree chain js).map Prod.fst).Sublist js := by
  induction js with
  | nil => exact List.Sublist.refl _
  | cons j js ih =>
    rw [ready, List.filterMap_cons]
    cases j.made tree chain with
    | error e => exact ih.cons j
    | ok b => exact ih.cons_cons j

section Stages
variable (tree : Tree) (chain : Chain) (js : List Job)

theorem unreadable_jobs :
    unreadable (js.map fun j => (j.path, j.source tree)) = (unread tree js).map failure := by
  induction js with
  | nil => rfl
  | cons j js ih =>
    rw [unreadable, unread] at *
    cases hs : j.source tree <;> simp [hs, failure, ih]

theorem run_jobs :
    chain.run (readable (js.map fun j => (j.path, j.source tree))) =
      ⟨chain.name, (ready tree chain js).map fun d => d.1.file d.2,
        (refused tree chain js).map failure⟩ := by
  rw [Pipeline.run_eq]
  induction js with
  | nil => rfl
  | cons j js ih =>
    rw [RunReport.mk.injEq] at ih ⊢
    rw [readable, ready, refused] at *
    obtain ⟨e, hs, hm⟩ | ⟨f, e, hs, hf, hp, hm⟩ | ⟨f, b, hs, hp, hm⟩ := made_cases tree chain j
    · simpa [hs, hm, Except.toOption] using ih
    · simpa [hs, hm, hp, hf, failure, Except.toOption] using ih
    · simpa [hs, hm, hp, Except.toOption] using ih

theorem perm_jobs : js.Perm
    ((ready tree chain js).map Prod.fst ++
      (unread tree js ++ refused tree chain js).map Prod.fst) := by
  induction js with
  | nil => exact List.Perm.refl _
  | cons j js ih =>
    obtain ⟨e, hs, hm⟩ | ⟨f, e, hs, -, hp, hm⟩ | ⟨f, b, hs, hp, hm⟩ := made_cases tree chain j
    · have hready : ready tree chain (j :: js) = ready tree chain js := by
        simp [ready, hm, Except.toOption]
      have hunread : unread tree (j :: js) = (j, e) :: unread tree js := by simp [unread, hs]
      have hrefused : refused tree chain (j :: js) = refused tree chain js := by simp [refused, hs]
      rw [hready, hunread, hrefused]
      exact (ih.cons j).trans List.perm_middle.symm
    · have hready : ready tree chain (j :: js) = ready tree chain js := by
        simp [ready, hm, Except.toOption]
      have hunread : unread tree (j :: js) = unread tree js := by simp [unread, hs]
      have hrefused : refused tree chain (j :: js) = (j, e) :: refused tree chain js := by
        simp [refused, hs, hp]
      rw [hready, hunread, hrefused, List.map_append, List.map_cons, ← List.append_assoc]
      rw [List.map_append, ← List.append_assoc] at ih
      exact (ih.cons j).trans List.perm_middle.symm
    · have hready : ready tree chain (j :: js) = (j, b) :: ready tree chain js := by
        simp [ready, hm, Except.toOption]
      have hunread : unread tree (j :: js) = unread tree js := by simp [unread, hs]
      have hrefused : refused tree chain (j :: js) = refused tree chain js := by
        simp [refused, hs, hp]
      rw [hready, hunread, hrefused]
      exact ih.cons j

theorem mem_ready {d : Job × ByteArray} :
    d ∈ ready tree chain js ↔ d.1 ∈ js ∧ d.1.made tree chain = .ok d.2 := by
  obtain ⟨j, b⟩ := d
  rw [ready, List.mem_filterMap]
  constructor
  · rintro ⟨j', hj, h⟩
    cases hm : j'.made tree chain with
    | error e => simp [hm, Except.toOption] at h
    | ok b' =>
      simp only [hm, Except.toOption, Option.map_some, Option.some.injEq, Prod.mk.injEq] at h
      obtain ⟨rfl, rfl⟩ := h
      exact ⟨hj, hm⟩
  · rintro ⟨hj, hm⟩
    exact ⟨j, hj, by simp [hm, Except.toOption]⟩

theorem mem_unready {f : Job × Fault} :
    f ∈ unread tree js ++ refused tree chain js ↔
      f.1 ∈ js ∧ f.1.made tree chain = .error f.2 := by
  obtain ⟨j, e⟩ := f
  rw [List.mem_append, unread, refused, List.mem_filterMap, List.mem_filterMap, ← exists_or]
  constructor
  · rintro ⟨j', h⟩
    obtain ⟨e', hs, hm⟩ | ⟨g, e', hs, -, hp, hm⟩ | ⟨g, b, hs, hp, hm⟩ := made_cases tree chain j'
    · simp only [hs, Option.some.injEq, Prod.mk.injEq, reduceCtorEq, and_false, or_false] at h
      obtain ⟨hj, rfl, rfl⟩ := h
      exact ⟨hj, hm⟩
    · simp only [hs, hp, Option.some.injEq, Prod.mk.injEq, reduceCtorEq, and_false, false_or] at h
      obtain ⟨hj, rfl, rfl⟩ := h
      exact ⟨hj, hm⟩
    · simp [hs, hp] at h
  · rintro ⟨hj, hm⟩
    refine ⟨j, ?_⟩
    obtain ⟨e', hs, hm'⟩ | ⟨g, e', hs, -, hp, hm'⟩ | ⟨g, b, hs, hp, hm'⟩ := made_cases tree chain j
    · rw [hm] at hm'
      cases hm'
      exact Or.inl ⟨hj, by simp [hs]⟩
    · rw [hm] at hm'
      cases hm'
      exact Or.inr ⟨hj, by simp [hs, hp]⟩
    · rw [hm] at hm'
      cases hm'

end Stages

end CommandLine
end SourceMarks
