import SourceMarks.Proofs.Marker.Replacement
import SourceMarks.Proofs.Text.Cut
import SourceMarks.Proofs.Text.Search
import SourceMarks.Version.Stamp

/-! When a target can be versioned, and where its version is put. -/
namespace SourceMarks.Version
variable {target token : Text}

theorem version_eq_error_iff {e : Fault} :
    version target token = .error e ↔ classify target = .error e := by
  rw [version, bind_eq_error_iff]
  constructor
  · intro h
    cases h with
    | inl h => exact h
    | inr h =>
      obtain ⟨kind, -, h⟩ := h
      dsimp only at h
      split at h <;> cases h
  · exact Or.inl

theorem stamp_eq_ok_iff {text out : Text} : stamp token text = .ok out ↔
    ∃ new, (∀ p ∈ Marker.noCache.payloads text, version p token = .ok (new p)) ∧
      out = fill new (Marker.noCache.pieces text) :=
  Marker.replace_eq_ok_iff (g := fun p => version p token)

theorem cutComment?_append {s : LineState} {line : Text} {p : Text × Text}
    (h : cutComment? s line = some p) : p.1 ++ p.2 = line := by
  induction line generalizing s p with
  | nil => cases h
  | cons c line ih =>
    rw [cutComment?] at h
    split at h
    · cases h
      rfl
    · obtain ⟨q, hq, rfl⟩ := Option.map_eq_some_iff.mp h
      exact congrArg (c :: ·) (ih hq)

theorem splitComment_append (line : Text) :
    (splitComment line).1 ++ (splitComment line).2 = line := by
  rw [splitComment]
  split
  · exact List.append_nil line
  · next code comment hc =>
    have hp : code <+: line := ⟨comment, cutComment?_append hc⟩
    exact List.prefix_iff_eq_append.mp ((Text.dropEnd_prefix isBlank code).trans hp)

theorem cutLast_append (separator : Char) (t : Text) :
    (cutLast separator t).1 ++ (cutLast separator t).2 = t :=
  Text.cutAfterLast_append _ t

theorem splitQuery_append (code : Text) : (splitQuery code).1 ++ (splitQuery code).2 = code := by
  have hcore := cutLast_append '/' (Text.dropEnd isDelimiter code)
  rw [splitQuery]
  dsimp only
  split
  · have hp := Text.dropEnd_prefix isDelimiter code
    refine List.prefix_iff_eq_append.mp (List.IsPrefix.trans ?_ hp)
    conv => rhs; rw [← hcore]
    exact (List.prefix_append_right_inj _).mpr (List.takeWhile_prefix _)
  · exact List.append_nil code

theorem cutLast_eq {separator : Char} {y : Text} (h : separator ∉ y) (x : Text) :
    cutLast separator (x ++ separator :: y) = (x ++ [separator], y) := by
  refine Text.cutAfterLast_eq (by simp) (fun d hd => ?_) x
  have hne : d ≠ separator := fun he => h (he ▸ hd)
  simpa using hne

theorem isBlank_separator (kind : Kind) : isBlank kind.separator = false := by
  cases kind <;> rfl

theorem isBlank_of_isAlphanum {c : Char} (h : c.isAlphanum = true) : isBlank c = false := by
  have hn : (65 ≤ c.toNat ∧ c.toNat ≤ 90 ∨ 97 ≤ c.toNat ∧ c.toNat ≤ 122) ∨
      48 ≤ c.toNat ∧ c.toNat ≤ 57 := by
    change ((decide (65 ≤ c.val ∧ c.val ≤ 90) || 97 ≤ c.val && c.val ≤ 122) ||
      48 ≤ c.val && c.val ≤ 57) = true at h
    simp only [Bool.or_eq_true, Bool.and_eq_true, decide_eq_true_eq, UInt32.le_iff_toNat_le] at h
    exact h
  simp only [isBlank, Bool.or_eq_false_iff, Bool.and_eq_false_iff, decide_eq_false_iff_not]
  omega

theorem isTokenChar_of_isBlank {c : Char} (h : isBlank c = true) : isTokenChar c = false := by
  have hne : ∀ d, isBlank d = false → c ≠ d := fun d hd => ne_of_apply_ne isBlank (by simp [h, hd])
  have hletter : c.isAlphanum = false := by
    by_contra hc
    rw [isBlank_of_isAlphanum (by simpa using hc)] at h
    cases h
  simp [isTokenChar, hletter, hne '.' (by decide), hne '_' (by decide), hne '-' (by decide)]

theorem not_mem_cutLast (separator : Char) (t : Text) : separator ∉ (cutLast separator t).2 := by
  by_cases h : separator ∈ t
  · obtain ⟨x, y, rfl, hy⟩ := Text.exists_last_of_mem h
    rw [cutLast_eq hy]
    exact hy
  · have hnone : cutLast separator t = ([], t) := by
      refine Text.cutAfterLast_of_none fun c hc => ?_
      have hne : c ≠ separator := fun he => h (he ▸ hc)
      simpa using hne
    rwa [hnone]

/-- How a path without its delimiters is versioned. -/
def kindOf? (core : Text) : Option Kind :=
  if hasExtension (cutLast '/' core).2 then some .extension
  else if core.contains '/' then some .path
  else none

theorem classify_eq_ok_iff {kind : Kind} : classify target = .ok kind ↔
    kindOf? (Text.dropEnd isDelimiter (splitQuery (splitComment target).1).1) = some kind := by
  rw [classify, kindOf?]
  split
  · simp
  · split <;> simp

/-- The separator of a path that can be versioned lies in its last segment, or in front of it. -/
theorem exists_separator {core : Text} {kind : Kind} (h : kindOf? core = some kind) :
    ∃ x y, core = x ++ kind.separator :: y ∧ kind.separator ∉ y ∧ '/' ∉ y := by
  rw [kindOf?] at h
  split at h
  · next he =>
    cases h
    rw [hasExtension, List.contains_iff_mem] at he
    obtain ⟨x, y, hxy, hy⟩ := Text.exists_last_of_mem (List.dropLast_subset _ he)
    have hslash := not_mem_cutLast '/' core
    rw [hxy] at hslash
    refine ⟨(cutLast '/' core).1 ++ x, y, ?_, hy, fun hm => hslash (by simp [hm])⟩
    rw [List.append_assoc]
    exact hxy ▸ (cutLast_append '/' core).symm
  · split at h
    · next hp =>
      cases h
      obtain ⟨x, y, hxy, hy⟩ := Text.exists_last_of_mem (List.contains_iff_mem.mp hp)
      exact ⟨x, y, hxy, hy, hy⟩
    · cases h

/-- A target that can be versioned has its separator in the path, so the first and the last piece
between separators are not the same one. -/
theorem separator_mem_path {kind : Kind} (h : classify target = .ok kind) :
    kind.separator ∈ (splitQuery (splitComment target).1).1 := by
  obtain ⟨x, y, hxy, -, -⟩ := exists_separator (classify_eq_ok_iff.mp h)
  refine (Text.dropEnd_prefix isDelimiter _).subset ?_
  rw [hxy]
  simp

theorem classify_eq_error {e : Fault} (h : classify target = .error e) :
    e = .unversionable target.trim := by
  rw [classify] at h
  split at h
  · cases h
  · split at h
    · cases h
    · cases h
      rfl

/-- Whether a character belongs to the query in front of it. -/
def inQuery (c : Char) : Bool := !(c = '#' || isDelimiter c)

/-- What joins a version to a target: it opens a query, or it goes on after the items of the query
that is there, or it is its first item. -/
def joiner (target : Text) : Text :=
  match (splitQuery (splitComment target).1).2 with
  | '?' :: query => if query.takeWhile inQuery = [] then ['v', '='] else ['&', 'v', '=']
  | _ => ['?', 'v', '=']

theorem intoQuery_eq (query token : Text) : intoQuery query token =
    '?' :: query.takeWhile inQuery ++
      ((if query.takeWhile inQuery = [] then ['v', '='] else ['&', 'v', '=']) ++ token) ++
      query.dropWhile inQuery := by
  change '?' :: (query.takeWhile inQuery ++
      (if (query.takeWhile inQuery).isEmpty then [] else ['&']) ++
    ['v', '='] ++ token ++ query.dropWhile inQuery) = _
  cases query.takeWhile inQuery <;> simp

/-- A version is put into the target at one place, in front of the comment; only blanks at the
beginning are lost. -/
theorem exists_insertion {out : Text} (h : version target token = .ok out) :
    ∃ x y, target.trimStart = x ++ y ∧ out = x ++ (joiner target ++ token) ++ y ∧
      (splitComment target).2 <:+ y := by
  rw [version, bind_eq_ok_iff] at h
  obtain ⟨kind, hk, h⟩ := h
  have hsep := separator_mem_path hk
  have hblank := isBlank_separator kind
  have hc := splitComment_append target
  rw [joiner]
  generalize splitComment target = parts at h hc hsep ⊢
  obtain ⟨code, comment⟩ := parts
  have hq := splitQuery_append code
  dsimp only at h hc hsep ⊢
  generalize splitQuery code = parts at h hq hsep ⊢
  obtain ⟨path, rest⟩ := parts
  dsimp only at h hq hsep
  subst hc hq
  obtain ⟨front, last, rfl, hl⟩ := Text.exists_last_of_mem hsep
  rw [cutLast_eq hl] at h
  dsimp only at h ⊢
  split at h
  · next query =>
    cases h
    have hquery :
        query.takeWhile inQuery ++ (query.dropWhile inQuery ++ comment) = query ++ comment := by
      rw [← List.append_assoc, List.takeWhile_append_dropWhile]
    refine ⟨(front ++ kind.separator :: last).trimStart ++ '?' :: query.takeWhile inQuery,
      query.dropWhile inQuery ++ comment, ?_, ?_, List.suffix_append _ _⟩
    · rw [List.append_assoc, Text.trimStart_append hsep hblank]
      simp [hquery]
    · rw [intoQuery_eq]
      simp
  · next hrest =>
    cases h
    have hfront : kind.separator ∈ front ++ [kind.separator] := by simp
    have hlast : last.takeWhile isTokenChar ++ (last.dropWhile isTokenChar ++ (rest ++ comment)) =
        last ++ (rest ++ comment) := by
      rw [← List.append_assoc, List.takeWhile_append_dropWhile]
    refine ⟨(front ++ [kind.separator]).trimStart ++ last.takeWhile isTokenChar,
      last.dropWhile isTokenChar ++ rest ++ comment, ?_, ?_, List.suffix_append _ _⟩
    · rw [List.append_cons, List.append_assoc, List.append_assoc,
        Text.trimStart_append hfront hblank]
      simp [hlast]
    · simp [intoSegment]

/-- Versioning fails exactly where classification does, and with its fault. Else the version is put
into the target at one place in front of the comment, and only blanks at the beginning are lost. -/
theorem version_single_insertion (target token : Text) :
    (∀ e, version target token = .error e ↔ classify target = .error e) ∧
    (∀ e, classify target = .error e → e = .unversionable target.trim) ∧
    ∀ out, version target token = .ok out → ∃ x y, target.trimStart = x ++ y ∧
      out = x ++ (joiner target ++ token) ++ y ∧ (splitComment target).2 <:+ y :=
  ⟨fun _ => version_eq_error_iff, fun _ => classify_eq_error, fun _ => exists_insertion⟩

/-- An item is put behind the last one of a query, in front of the comment. -/
theorem version_single_insertion_item :
    let target := [' ', 'a', '.', 'b', '?', 'c', ' ', '/', '/']
    let out := ['a', '.', 'b', '?', 'c', '&', 'v', '=', '7', ' ', '/', '/']
    version target ['7'] = .ok out ∧
    ∃ x y, Text.trimStart target = x ++ y ∧ out = x ++ (joiner target ++ ['7']) ++ y ∧
      (splitComment target).2 <:+ y := by
  intro target out
  have h : version target ['7'] = .ok out := by decide +kernel
  exact ⟨h, (version_single_insertion target ['7']).2.2 out h⟩

/-- What leads in a version: it opens a query, goes on after its items, or is its first item. -/
def joiners : List Text := [['?', 'v', '='], ['&', 'v', '='], ['v', '=']]

theorem joiner_mem_joiners (target : Text) : joiner target ∈ joiners := by
  rw [joiner]
  split
  · split <;> simp [joiners]
  · simp [joiners]

/-- A version is put into the target at one place; only blanks at the beginning are lost. -/
theorem version_inserts {out : Text} (h : version target token = .ok out) :
    ∃ x y, ∃ joiner ∈ joiners, x ++ y <:+ target ∧ out = x ++ (joiner ++ token) ++ y := by
  obtain ⟨x, y, hxy, hout, -⟩ := exists_insertion h
  refine ⟨x, y, joiner target, joiner_mem_joiners target, ?_, hout⟩
  rw [← hxy]
  exact List.dropWhile_suffix isBlank

theorem slash_not_mem_token (ht : ∀ c ∈ token, isTokenChar c = true) : '/' ∉ token :=
  fun h => absurd (ht '/' h) (by decide)

theorem head_joiner : ∀ joiner ∈ joiners, ∀ token rest : Text,
    ∀ c ∈ (joiner ++ token ++ rest).head?, c ∉ Marker.loadOpening := by
  simp [joiners, Marker.loadOpening]

/-- Versioning opens no load marker on a line that has none. -/
theorem not_loadOpening_infix_version {out : Text} (ht : ∀ c ∈ token, isTokenChar c = true)
    (hn : ¬ Marker.loadOpening <:+: target) (h : version target token = .ok out) :
    ¬ Marker.loadOpening <:+: out := by
  obtain ⟨x, y, joiner, hj, hxy, rfl⟩ := version_inserts h
  intro hi
  have hs : '/' ∉ joiner ++ token := by
    rw [List.mem_append]
    intro hm
    cases hm with
    | inl hm => exact (by decide : ∀ j ∈ joiners, '/' ∉ j) joiner hj hm
    | inr hm => exact slash_not_mem_token ht hm
  rw [List.append_assoc] at hi
  cases Text.infix_of_head_not_mem (head_joiner joiner hj token y) hi with
  | inl hx => exact hn ((List.infix_append_of_infix_left hx).trans hxy.isInfix)
  | inr hy =>
    have hy := Text.infix_of_not_mem hs hy
    exact hn ((List.infix_append_of_infix_right hy).trans hxy.isInfix)

end SourceMarks.Version
