import SourceMarks.Proofs.Marker.Form
import SourceMarks.Proofs.Version.Target

/-!
Where the line of a target is cut: which lines have no comment, and where a query or a fragment
begins.
-/
namespace SourceMarks.Version
variable {code path target x t e quote : Text} {kind : Kind} {c q : Char}

section Line

theorem cutComment?_of_not_mem (s : LineState) (h : '/' ∉ t) : cutComment? s t = none := by
  induction t generalizing s with
  | nil => rfl
  | cons c t ih =>
    have hc : c ≠ '/' := fun he => h (he ▸ List.mem_cons_self)
    simp [cutComment?, hc, ih _ (List.not_mem_of_not_mem_cons h)]

/-- No comment begins in quotes. -/
theorem cutComment?_quoted (p : Option Char) (hx : ∀ c ∈ x, c ≠ q ∧ c ≠ '\\') (ht : '/' ∉ t) :
    cutComment? ⟨some q, false, p⟩ (x ++ q :: t) = none := by
  induction x generalizing p with
  | nil =>
    rw [List.nil_append, cutComment?, cutComment?_of_not_mem _ ht]
    simp [LineState.opensComment]
  | cons c x ih =>
    rw [List.forall_mem_cons] at hx
    have hs : LineState.step ⟨some q, false, p⟩ c = ⟨some q, false, some c⟩ := by
      simp [LineState.step, hx.1.1, hx.1.2]
    rw [List.cons_append, cutComment?, hs, ih _ hx.2]
    simp [LineState.opensComment]

/-- A line that begins with a quoted text has no comment in the quotes. -/
theorem cutComment?_initial_quoted (hq : isQuote q = true)
    (hx : ∀ c ∈ x, isDelimiter c = false ∧ c ≠ '\\') (ht : '/' ∉ t) :
    cutComment? .initial (q :: (x ++ q :: t)) = none := by
  have hne : ∀ c ∈ x, c ≠ q ∧ c ≠ '\\' := by
    intro c hc
    refine ⟨?_, (hx c hc).2⟩
    rintro rfl
    have hd := (hx c hc).1
    simp [isDelimiter, hq] at hd
  have hstep : LineState.step .initial q = ⟨some q, false, some q⟩ := by
    simp [LineState.step, LineState.initial, hq]
  have hslash : q ≠ '/' := by
    rintro rfl
    cases hq
  rw [cutComment?, hstep, cutComment?_quoted (some q) hne ht]
  simp [hslash]

/-- No comment begins behind a character that does not end a reference. -/
theorem cutComment?_bare {d : Char} (hd : isDelimiter d = false)
    (hx : ∀ c ∈ x, isDelimiter c = false) (ht : '/' ∉ t) :
    cutComment? ⟨none, false, some d⟩ (x ++ t) = none := by
  induction x generalizing d with
  | nil => exact cutComment?_of_not_mem _ ht
  | cons c x ih =>
    rw [List.forall_mem_cons] at hx
    have hopen : LineState.opensComment ⟨none, false, some d⟩ = false := by
      simp only [isDelimiter, Bool.or_eq_false_iff] at hd
      simp [LineState.opensComment, hd]
    have hs : LineState.step ⟨none, false, some d⟩ c = ⟨none, false, some c⟩ := by
      have hc := hx.1
      simp only [isDelimiter, Bool.or_eq_false_iff] at hc
      simp [LineState.step, hc]
    rw [List.cons_append, cutComment?, hs, ih hx.1 hx.2, hopen]
    simp

/-- A line that does not begin with a comment has none behind characters that do not end a
reference. -/
theorem cutComment?_initial (hn : ¬ ['/', '/'] <+: x ++ t) (hx : ∀ c ∈ x, isDelimiter c = false)
    (ht : '/' ∉ t) : cutComment? .initial (x ++ t) = none := by
  cases x with
  | nil => exact cutComment?_of_not_mem _ ht
  | cons c x =>
    rw [List.forall_mem_cons] at hx
    have hs : LineState.step .initial c = ⟨none, false, some c⟩ := by
      have hc := hx.1
      simp only [isDelimiter, Bool.or_eq_false_iff] at hc
      simp [LineState.step, LineState.initial, hc]
    have hopen : ¬ (c = '/' ∧ (x ++ t).head? = some '/') := by
      rintro ⟨rfl, h⟩
      obtain ⟨r, hr⟩ := List.head?_eq_some_iff.mp h
      exact hn ⟨r, by simp [hr]⟩
    rw [List.cons_append, cutComment?, hs, cutComment?_bare hx.1 hx.2 ht]
    simp_all

theorem splitComment_of_none (h : cutComment? .initial t = none) : splitComment t = (t, []) := by
  rw [splitComment, h]

theorem splitComment_of_opens (h : ['/', '/'] <+: t) : splitComment t = ([], t) := by
  obtain ⟨r, rfl⟩ := h
  rfl

end Line

section Cuts

theorem splitQuery_of_forall (h : ∀ c ∈ code, opensQuery c = false) :
    splitQuery code = (code, []) := by
  have hseg : (cutLast '/' (Text.dropEnd isDelimiter code)).2.any opensQuery = false := by
    rw [List.any_eq_false]
    intro c hc
    have hcore : c ∈ Text.dropEnd isDelimiter code := by
      rw [← cutLast_append '/' (Text.dropEnd isDelimiter code)]
      exact List.mem_append_right _ hc
    simp [h c ((Text.dropEnd_prefix isDelimiter code).subset hcore)]
  rw [splitQuery]
  simp [hseg]

/-- A query or a fragment without slashes begins where it is opened. -/
theorem splitQuery_of_opens {u : Text} (hp : ∀ d ∈ path, opensQuery d = false)
    (hc : opensQuery c = true) (hs : '/' ∉ c :: u) (hu : ∀ d ∈ c :: u, isDelimiter d = false)
    (he : ∀ d ∈ e, isDelimiter d = true) :
    splitQuery (path ++ c :: u ++ e) = (path, c :: u ++ e) := by
  have hcore : Text.dropEnd isDelimiter (path ++ c :: u ++ e) = path ++ c :: u := by
    refine Text.dropEnd_append (fun d hd => hu d ?_) he
    rw [List.getLast?_append, List.getLast?_cons, Option.some_or, ← List.getLast?_cons] at hd
    exact List.mem_of_getLast? hd
  have hcut :
      cutLast '/' (path ++ c :: u) = ((cutLast '/' path).1, (cutLast '/' path).2 ++ c :: u) := by
    refine Text.cutAfterLast_append_of_none (fun d hd => ?_) path
    have hne : d ≠ '/' := fun h => hs (h ▸ hd)
    simpa using hne
  have hpath := cutLast_append '/' path
  have htake :
      ((cutLast '/' path).2 ++ c :: u).takeWhile (!opensQuery ·) = (cutLast '/' path).2 := by
    refine Marker.takeWhile_of_head (fun d hd => ?_) (by simp [hc])
    have hd : d ∈ path := hpath ▸ List.mem_append_right _ hd
    simp [hp d hd]
  rw [splitQuery]
  simp only [hcore, hcut, htake, hpath]
  rw [if_pos (by simp [hc]), List.append_assoc, List.drop_left]

/-- A quote in front of a path does not change how it is versioned. -/
theorem kindOf?_append (hq : '/' ∉ quote ∧ '.' ∉ quote) (hp : path ≠ []) :
    kindOf? (quote ++ path) = kindOf? path := by
  have hcontains : (quote ++ path).contains '/' = path.contains '/' := by simp [hq.1]
  by_cases hs : '/' ∈ path
  · obtain ⟨x, y, rfl, hy⟩ := Text.exists_last_of_mem hs
    rw [kindOf?, kindOf?, hcontains, ← List.append_assoc, cutLast_eq hy, cutLast_eq hy]
  · have hnone : ∀ t, '/' ∉ t → cutLast '/' t = ([], t) := by
      intro t ht
      refine Text.cutAfterLast_of_none fun d hd => ?_
      have hne : d ≠ '/' := fun h => ht (h ▸ hd)
      simpa using hne
    have hext : hasExtension (quote ++ path) = hasExtension path := by
      rw [hasExtension, hasExtension, List.dropLast_append_of_ne_nil hp]
      simp [hq.2]
    rw [kindOf?, kindOf?, hcontains, hnone _ (by simp [hq.1, hs]), hnone _ hs, hext]

/-- What is cut off as a query or a fragment holds no slash. -/
theorem splitQuery_rest (code : Text) : '/' ∉ (splitQuery code).2 ∧
    ∀ c ∈ (splitQuery code).2.head?, opensQuery c = true := by
  obtain ⟨e, hcode, he⟩ := Text.exists_dropEnd isDelimiter code
  have hseg := not_mem_cutLast '/' (Text.dropEnd isDelimiter code)
  have hcore := cutLast_append '/' (Text.dropEnd isDelimiter code)
  rw [splitQuery]
  generalize cutLast '/' (Text.dropEnd isDelimiter code) = parts at hseg hcore ⊢
  obtain ⟨front, segment⟩ := parts
  dsimp only at hseg hcore ⊢
  split
  · next hany =>
    have hcut : code = front ++ segment.takeWhile (!opensQuery ·) ++
        (segment.dropWhile (!opensQuery ·) ++ e) := by
      rw [List.append_assoc, ← List.append_assoc (segment.takeWhile _),
        List.takeWhile_append_dropWhile, ← List.append_assoc, hcore, ← hcode]
    have hne : segment.dropWhile (!opensQuery ·) ≠ [] := by
      rw [ne_eq, List.dropWhile_eq_nil_iff]
      intro hall
      obtain ⟨c, hc, hopens⟩ := List.any_eq_true.mp hany
      simpa [hopens] using hall c hc
    have hrest : code.drop (front ++ segment.takeWhile (!opensQuery ·)).length =
        segment.dropWhile (!opensQuery ·) ++ e := by
      conv => lhs; rw [hcut]
      exact List.drop_left
    rw [hrest]
    constructor
    · intro hm
      cases List.mem_append.mp hm with
      | inl hm => exact hseg ((List.dropWhile_sublist _).subset hm)
      | inr hm => exact absurd (he '/' hm) (by decide)
    · intro c hc
      obtain ⟨d, more, hd⟩ := List.exists_cons_of_ne_nil hne
      rw [hd] at hc
      have hhead : d ∈ (segment.dropWhile (!opensQuery ·)).head? := by simp [hd]
      obtain rfl : d = c := by simpa using hc
      simpa using Marker.head?_dropWhile_not d hhead
  · simp

section Parts
variable {rest : Text} (hc : splitComment target = (target, []))
  (hq : splitQuery target = (path, rest))
  (hk : kindOf? (Text.dropEnd isDelimiter path) = some kind)
include hc hq hk

theorem classify_of_parts : classify target = .ok kind := by
  rw [classify_eq_ok_iff, hc, hq]
  exact hk

theorem version_of_query {query : Text} (hr : rest = '?' :: query) (token : Text) :
    version target token = .ok (path.trimStart ++ intoQuery query token) := by
  subst hr
  rw [version, classify_of_parts hc hq hk, hc]
  simp only [bind, Except.bind, hq, cutLast_append, List.append_nil]

theorem version_of_segment (hr : rest.head? ≠ some '?') (token : Text) :
    version target token = .ok ((cutLast kind.separator path).1.trimStart ++
      intoSegment (cutLast kind.separator path).2 token ++ rest) := by
  rw [version, classify_of_parts hc hq hk, hc]
  simp only [bind, Except.bind, hq]
  split
  · exact absurd rfl hr
  · rw [List.append_nil]

end Parts

end Cuts

end SourceMarks.Version
