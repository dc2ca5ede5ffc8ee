import SourceMarks.Proofs.Matcher.Expand

/-!
When a list of patterns fails. A pattern behind `!` is always read; one that adds paths is read only
below a folder that is there. Main statement: a list fails at the first pattern that is read and
refused.
-/
namespace SourceMarks.Matcher
variable {tree : Tree} {root : Path} {files patterns : List Text} {p : Text} {fault : Fault}

/-- What has to be a glob: all behind `!`, or a pattern with wildcards. -/
def glob? : Text → Option Text
  | '!' :: negated => some negated
  | p => if Glob.hasMagic p then some p else none

/-- A pattern has a glob that cannot be read, and the fault names it. -/
def Refused (p : Text) (fault : Fault) : Prop :=
  ∃ glob cause, glob? p = some glob ∧ Glob.compile glob = .error cause ∧
    fault = .invalidPattern glob cause

/-- The glob of a pattern is read: it removes paths, or there is a folder at its lead. -/
def IsRead (tree : Tree) (root : Path) (p : Text) : Prop :=
  p.head? = some '!' ∨ (tree.folderAt? (root.join ⟨(Glob.splitStatic p).1⟩).raw).isSome

/-- A pattern stops a list. -/
def Stops (tree : Tree) (root : Path) (p : Text) (fault : Fault) : Prop :=
  Refused p fault ∧ IsRead tree root p

theorem compile_eq_error_iff : compile p = .error fault ↔
    ∃ cause, Glob.compile p = .error cause ∧ fault = .invalidPattern p cause := by
  rw [compile]
  cases Glob.compile p with
  | ok e => simp [Except.mapError]
  | error cause => simp [Except.mapError, eq_comm]

theorem refused_negated : Refused ('!' :: p) fault ↔ compile p = .error fault := by
  simp [Refused, glob?, compile_eq_error_iff]

theorem refused_positive (hp : p.head? ≠ some '!') :
    Refused p fault ↔ Glob.hasMagic p = true ∧ compile p = .error fault := by
  have hglob : glob? p = if Glob.hasMagic p then some p else none := by
    unfold glob?
    split
    · exact absurd rfl hp
    · rfl
  rw [Refused, hglob, compile_eq_error_iff]
  cases Glob.hasMagic p <;> simp

theorem expand_eq_error_iff : expand tree root p = .error fault ↔
    Glob.hasMagic p = true ∧ (tree.folderAt? (root.join ⟨(Glob.splitStatic p).1⟩).raw).isSome ∧
      compile p = .error fault := by
  rw [expand]
  cases Glob.hasMagic p with
  | false => simp
  | true =>
    simp only [Bool.not_true, Bool.false_eq_true, if_false, true_and]
    split
    · next hf => simp [hf]
    · next inner hf => simp [hf, bind_ok_eq_error_iff]

/-- What a pattern fails with does not depend on the paths collected before it. -/
theorem apply_eq_error_iff :
    Matcher.apply (expand tree root) files p = .error fault ↔ Stops tree root p fault := by
  rw [Matcher.apply.eq_def]
  split
  · next negated =>
    rw [bind_ok_eq_error_iff, Stops, refused_negated]
    simp [IsRead]
  · next hp =>
    have hhead : p.head? ≠ some '!' := by
      intro h
      obtain ⟨negated, rfl⟩ := List.head?_eq_some_iff.mp h
      exact hp negated rfl
    rw [bind_ok_eq_error_iff, expand_eq_error_iff, Stops, refused_positive hhead]
    simp only [IsRead, hhead, false_or]
    rw [and_assoc, and_comm (a := compile p = .error fault)]

/-- The matcher of a tree fails at the first pattern that stops it. -/
theorem resolve_fails_iff : (ofTree tree root).resolve patterns = .error fault ↔
    FirstFault (fun _ => Stops tree root) patterns fault :=
  foldlM_eq_error_iff fun _ _ _ => apply_eq_error_iff

theorem resolve_ok_iff : (∃ files, (ofTree tree root).resolve patterns = .ok files) ↔
    ∀ p ∈ patterns, ∀ fault, ¬ Stops tree root p fault := by
  rw [← faultless_iff]
  constructor
  · intro hok
    obtain ⟨files, hok⟩ := hok
    by_contra hf
    obtain ⟨fault, hfirst⟩ := exists_firstFault hf
    rw [resolve_fails_iff.mpr hfirst] at hok
    cases hok
  · intro hf
    cases h : (ofTree tree root).resolve patterns with
    | ok files => exact ⟨files, rfl⟩
    | error fault => exact absurd hf (resolve_fails_iff.mp h).not_faultless

/-- The fault of a pattern that cannot be read. -/
def IsPatternFault (fault : Fault) : Prop := ∃ p cause, fault = .invalidPattern p cause

/-- The matcher of a tree fails only at patterns that cannot be read. -/
theorem isPatternFault_resolve (h : (ofTree tree root).resolve patterns = .error fault) :
    IsPatternFault fault := by
  obtain ⟨before, p, after, -, -, hrefused, -⟩ := resolve_fails_iff.mp h
  obtain ⟨glob, cause, -, -, hfault⟩ := hrefused
  exact ⟨glob, cause, hfault⟩

/-- If the first pattern to be refused is read, then the list stops there. -/
theorem firstFault_stops_iff
    (h : ∀ before p after fault,
      patterns = before ++ p :: after → Faultless (fun _ => Refused) before →
      Refused p fault → IsRead tree root p) :
    FirstFault (fun _ => Stops tree root) patterns fault ↔
      FirstFault (fun _ => Refused) patterns fault := by
  constructor
  · intro hfirst
    obtain ⟨before, p, after, hs, hf, hrefused, hread⟩ := hfirst
    refine ⟨before, p, after, hs, ?_, hrefused⟩
    by_contra hn
    obtain ⟨fault', front, p', back, hb, hclean, hrefused'⟩ := exists_firstFault hn
    have hread' : IsRead tree root p' := by
      refine h front p' (back ++ p :: after) fault' ?_ hclean hrefused'
      rw [hs, hb, List.append_assoc, List.cons_append]
    exact hf front p' back fault' hb ⟨hrefused', hread'⟩
  · intro hfirst
    obtain ⟨before, p, after, hs, hf, hrefused⟩ := hfirst
    have hclean : Faultless (fun _ => Stops tree root) before :=
      fun front p' back fault' hb hstop => hf front p' back fault' hb hstop.1
    exact ⟨before, p, after, hs, hclean, hrefused, h before p after fault hs hf hrefused⟩

/-- A list of patterns fails at the first one that is refused and read, and its fault names the glob
without `!`; if there is none, it succeeds. So it fails as if all patterns were read when the first
one to be refused is read, and of the tree only the folders at the leads of refused patterns
matter. -/
theorem resolve_diagnoses (tree : Tree) (root : Path) (patterns : List Text) :
    (∀ fault, (ofTree tree root).resolve patterns = .error fault ↔
      FirstFault (fun _ => Stops tree root) patterns fault) ∧
    ((∃ files, (ofTree tree root).resolve patterns = .ok files) ↔
      ∀ p ∈ patterns, ∀ fault, ¬ Stops tree root p fault) ∧
    ((∀ before p after fault,
      patterns = before ++ p :: after → Faultless (fun _ => Refused) before →
        Refused p fault → IsRead tree root p) →
      ∀ fault, (ofTree tree root).resolve patterns = .error fault ↔
        FirstFault (fun _ => Refused) patterns fault) ∧
    ∀ (tree' : Tree) (root' : Path),
      (∀ p ∈ patterns, ∀ fault, Refused p fault → (IsRead tree root p ↔ IsRead tree' root' p)) →
      ∀ fault, (ofTree tree root).resolve patterns = .error fault ↔
        (ofTree tree' root').resolve patterns = .error fault := by
  refine ⟨fun fault => resolve_fails_iff, resolve_ok_iff, fun hread fault => ?_,
    fun tree' root' hsame fault => ?_⟩
  · exact resolve_fails_iff.trans (firstFault_stops_iff hread)
  · have hstops : ∀ p ∈ patterns, ∀ e, Stops tree root p e ↔ Stops tree' root' p e :=
      fun p hp e => and_congr_right (hsame p hp e)
    rw [resolve_fails_iff, resolve_fails_iff]
    constructor
    · intro h
      exact h.congr fun before p after e hs => hstops p (by simp [hs]) e
    · intro h
      exact h.congr fun before p after e hs => (hstops p (by simp [hs]) e).symm

/-- A set that is not closed, below a folder. -/
def openSet : Text := ['x', '/', '[', 'a']

/-- Below a folder the set is read, and the one behind it is not reached. -/
theorem resolve_diagnoses_first :
    let tree := Tree.empty.setFolder [Text.bytes ['x']]
    let patterns : List Text := [['*'], openSet, ['!', '[']]
    let fault : Fault := .invalidPattern openSet ⟨openSet, .unclosedSet⟩
    (∀ p ∈ patterns, IsRead tree ⟨['.']⟩ p) ∧
    (ofTree tree ⟨['.']⟩).resolve patterns = .error fault ∧
    FirstFault (fun _ => Refused) patterns fault := by
  have hread : ∀ p ∈ [['*'], openSet, ['!', '[']],
      IsRead (Tree.empty.setFolder [Text.bytes ['x']]) ⟨['.']⟩ p := by
    simp only [IsRead]
    decide
  have h :=
    (resolve_diagnoses (Tree.empty.setFolder [Text.bytes ['x']]) ⟨['.']⟩
      [['*'], openSet, ['!', '[']]).2.2.1
    (fun before p after fault hs _ _ => hread p (by simp [hs]))
  have herror :
      (ofTree (Tree.empty.setFolder [Text.bytes ['x']]) ⟨['.']⟩).resolve
        [['*'], openSet, ['!', '[']] =
      .error (.invalidPattern openSet ⟨openSet, .unclosedSet⟩) := by decide +kernel
  exact ⟨hread, herror, (h _).mp herror⟩

/-- The same pattern is refused or not, as there is a folder at its lead or none. -/
theorem not_resolve_diagnoses :
    let fault : Fault := .invalidPattern openSet ⟨openSet, .unclosedSet⟩
    Refused openSet fault ∧
    (ofTree Tree.empty ⟨['.']⟩).resolve [openSet] = .ok [] ∧
    (ofTree (Tree.empty.setFolder [Text.bytes ['x']]) ⟨['.']⟩).resolve [openSet] = .error fault ∧
    ¬ ∀ tree root patterns fault, (ofTree tree root).resolve patterns = .error fault ↔
        FirstFault (fun _ => Refused) patterns fault := by
  have hrefused : Refused openSet (.invalidPattern openSet ⟨openSet, .unclosedSet⟩) :=
    ⟨openSet, ⟨openSet, .unclosedSet⟩, rfl, rfl, rfl⟩
  have hnone : (ofTree Tree.empty ⟨['.']⟩).resolve [openSet] = .ok [] := by decide +kernel
  refine ⟨hrefused, hnone, by decide +kernel, fun h => ?_⟩
  have herror := (h Tree.empty ⟨['.']⟩ [openSet] _).mpr (firstFault_of_last faultless_nil hrefused)
  rw [hnone] at herror
  cases herror

end SourceMarks.Matcher
