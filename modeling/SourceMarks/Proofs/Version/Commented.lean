import SourceMarks.Proofs.Version.Target

/-!
Targets with a comment at the end of the line. Main statement: the comment has no influence on how a
target is versioned, whatever it holds, and stays behind the version.
-/
namespace SourceMarks.Version
variable {code target token t b : Text} {kind : Kind} {s : LineState}

/-- A line with a comment behind it. -/
def commented (line comment : Text) : Text := line ++ ' ' :: '/' :: '/' :: comment

/-- Where a reading stands behind a text. -/
def LineState.after (s : LineState) (t : Text) : LineState := t.foldl LineState.step s

/-- A version in the code of a target, which stands in front of its comment. -/
def intoCode (kind : Kind) (code token : Text) : Text :=
  let (path, rest) := splitQuery code
  let (front, last) := cutLast kind.separator path
  match rest with
  | '?' :: query => (front ++ last).trimStart ++ intoQuery query token
  | _ => front.trimStart ++ intoSegment last token ++ rest

theorem version_eq_ok_iff {out : Text} : version target token = .ok out ↔
    ∃ kind, classify target = .ok kind ∧
      out = intoCode kind (splitComment target).1 token ++ (splitComment target).2 := by
  rw [version, bind_eq_ok_iff]
  refine exists_congr fun kind => and_congr_right fun _ => ?_
  rw [intoCode]
  generalize splitComment target = parts
  obtain ⟨code, comment⟩ := parts
  dsimp only
  generalize splitQuery code = parts
  obtain ⟨path, rest⟩ := parts
  dsimp only
  split <;> simp [eq_comm]

section Comment

/-- A line without a comment is read to its end, and a comment may begin only behind it. -/
theorem cutComment?_append_of_none {r : Text} (h : cutComment? s t = none)
    (hr : r.head? ≠ some '/') :
    cutComment? s (t ++ r) = (cutComment? (s.after t) r).map fun p => (t ++ p.1, p.2) := by
  induction t generalizing s with
  | nil => simp [LineState.after]
  | cons c t ih =>
    rw [cutComment?] at h
    split at h
    · cases h
    · next hopen =>
      have hnone : cutComment? (s.step c) t = none := by simpa using h
      have hhead : ¬ (c = '/' && (t ++ r).head? = some '/' && s.opensComment) := by
        cases t with
        | nil => simp [hr]
        | cons d t => simpa using hopen
      rw [List.cons_append, cutComment?, if_neg hhead, ih hnone, Option.map_map]
      rfl

theorem cutComment?_commented (h : cutComment? .initial target = none)
    (hquote : (LineState.initial.after target).quote = none) (comment : Text) :
    cutComment? .initial (commented target comment) =
      some (target ++ [' '], '/' :: '/' :: comment) := by
  have hblank : ((LineState.initial.after target).step ' ').opensComment = true := by
    simp [LineState.step, hquote, LineState.opensComment, isQuote, isBlank]
  rw [commented, cutComment?_append_of_none h (by simp), cutComment?, if_neg (by simp), cutComment?,
    if_pos (by simpa using hblank)]
  rfl

theorem cutComment?_ne_nil {parts : Text × Text} (h : cutComment? s t = some parts) :
    parts.2 ≠ [] := by
  induction t generalizing s parts with
  | nil => cases h
  | cons c t ih =>
    rw [cutComment?] at h
    split at h
    · cases h
      simp
    · obtain ⟨inner, hi, rfl⟩ := Option.map_eq_some_iff.mp h
      have hne := ih hi
      exact hne

/-- Only a line without a comment has nothing cut off. -/
theorem cutComment?_eq_none (h : (splitComment target).2 = []) :
    cutComment? .initial target = none := by
  cases hc : cutComment? .initial target with
  | none => rfl
  | some parts =>
    have hall := splitComment_append target
    have hparts := cutComment?_append hc
    have hcode := (Text.dropEnd_prefix isBlank parts.1).length_le
    have hpos := List.length_pos_iff.mpr (cutComment?_ne_nil hc)
    have hfirst : (splitComment target).1 = parts.1.trimEnd := by rw [splitComment, hc]
    rw [h, List.append_nil, hfirst] at hall
    have hlength : parts.1.trimEnd.length = parts.1.length + parts.2.length := by
      rw [hall, ← hparts, List.length_append]
    rw [Text.trimEnd] at hlength
    omega

/-- The blanks in front of the comment go with it. -/
theorem splitComment_commented (h : cutComment? .initial target = none)
    (hquote : (LineState.initial.after target).quote = none) (comment : Text) :
    ∃ blanks, target = target.trimEnd ++ blanks ∧ (∀ c ∈ blanks, isBlank c = true) ∧
      splitComment (commented target comment) = (target.trimEnd, commented blanks comment) := by
  obtain ⟨blanks, ht, hb⟩ := Text.exists_dropEnd isBlank target
  have htrim : Text.trimEnd (target ++ [' ']) = target.trimEnd := Text.dropEnd_concat rfl target
  have hline : commented target comment = target.trimEnd ++ commented blanks comment := by
    rw [commented, commented, ← List.append_assoc]
    exact congrArg (· ++ _) ht
  refine ⟨blanks, ht, hb, ?_⟩
  rw [splitComment, cutComment?_commented h hquote]
  dsimp only
  rw [htrim, hline, List.drop_left]

end Comment

section Delimiters

theorem intoSegment_append (h : ∀ c ∈ b, isTokenChar c = false) (last token : Text) :
    intoSegment (last ++ b) token = intoSegment last token ++ b := by
  have hhead : ∀ c ∈ b.head?, isTokenChar c = false := fun c hc => h c (List.mem_of_mem_head? hc)
  simp [intoSegment, Marker.takeWhile_append_of_head hhead, Marker.dropWhile_append_of_head hhead]

theorem intoQuery_append (h : ∀ c ∈ b, isDelimiter c = true) (query token : Text) :
    intoQuery (query ++ b) token = intoQuery query token ++ b := by
  have hhead : ∀ c ∈ b.head?, inQuery c = false := fun c hc => by
    simp [inQuery, h c (List.mem_of_mem_head? hc)]
  rw [intoQuery_eq, intoQuery_eq, Marker.takeWhile_append_of_head hhead,
    Marker.dropWhile_append_of_head hhead, List.append_assoc _ _ b]

/-- Delimiters behind code belong to its query if it has one, and else to its path. -/
theorem splitQuery_append_cases (h : ∀ c ∈ b, isDelimiter c = true) (code : Text) :
    splitQuery (code ++ b) = ((splitQuery code).1, (splitQuery code).2 ++ b) ∨
      splitQuery code = (code, []) ∧ splitQuery (code ++ b) = (code ++ b, []) := by
  have hcore := Text.dropEnd_append_of_forall h code
  have hparts := splitQuery_append code
  rw [splitQuery, splitQuery, hcore]
  rw [splitQuery] at hparts
  dsimp only at hparts ⊢
  split at hparts
  · next hany =>
    rw [if_pos hany, if_pos hany]
    dsimp only at hparts ⊢
    have hlength := congrArg List.length hparts
    rw [List.length_append, List.length_drop] at hlength
    exact Or.inl (by rw [List.drop_append_of_le_length (by omega)])
  · next hany =>
    rw [if_neg hany, if_neg hany]
    exact Or.inr ⟨rfl, rfl⟩

theorem isDelimiter_of_isBlank {c : Char} (h : isBlank c = true) : isDelimiter c = true := by
  simp [isDelimiter, h]

/-- Blanks behind code are kept behind its version. -/
theorem intoCode_append (h : ∀ c ∈ b, isBlank c = true) (kind : Kind) (code token : Text) :
    intoCode kind (code ++ b) token = intoCode kind code token ++ b := by
  have hdelim : ∀ c ∈ b, isDelimiter c = true := fun c hc => isDelimiter_of_isBlank (h c hc)
  cases splitQuery_append_cases hdelim code with
  | inl hq =>
    rw [intoCode, intoCode, hq]
    generalize splitQuery code = parts
    obtain ⟨path, rest⟩ := parts
    dsimp only
    by_cases hr : ∃ query, rest = '?' :: query
    · obtain ⟨query, rfl⟩ := hr
      simp [intoQuery_append hdelim]
    · have hrest : ∀ query, rest ++ b ≠ '?' :: query := by
        intro query he
        cases rest with
        | nil =>
          have hb : b = '?' :: query := he
          have hblank := h '?' (hb ▸ List.mem_cons_self)
          exact absurd hblank (by decide)
        | cons c rest =>
          obtain ⟨rfl, -⟩ := List.cons.inj he
          exact hr ⟨rest, rfl⟩
      split
      · next hq => exact absurd hq (hrest _)
      · split
        · exact absurd ⟨_, rfl⟩ hr
        · simp
  | inr hq =>
    obtain ⟨hc, hcb⟩ := hq
    have hsep : ∀ c ∈ b, decide (c = kind.separator) = false := by
      intro c hc
      have hne : c ≠ kind.separator := by
        rintro rfl
        have hb := h _ hc
        rw [isBlank_separator] at hb
        cases hb
      simpa using hne
    have hcut : cutLast kind.separator (code ++ b) = ((cutLast kind.separator code).1,
        (cutLast kind.separator code).2 ++ b) := Text.cutAfterLast_append_of_none hsep code
    have htoken : ∀ c ∈ b, isTokenChar c = false := fun c hc => isTokenChar_of_isBlank (h c hc)
    rw [intoCode, intoCode, hc, hcb]
    dsimp only
    rw [hcut, intoSegment_append htoken]
    simp

/-- Delimiters behind code do not count in how it is versioned. -/
theorem core_append (h : ∀ c ∈ b, isDelimiter c = true) (code : Text) :
    Text.dropEnd isDelimiter (splitQuery (code ++ b)).1 =
      Text.dropEnd isDelimiter (splitQuery code).1 := by
  cases splitQuery_append_cases h code with
  | inl hq => rw [hq]
  | inr hq => rw [hq.1, hq.2, Text.dropEnd_append_of_forall h]

end Delimiters

/-- A comment behind a line that has none and that ends outside quotes has no influence on how its
target is versioned: the line with the comment is versioned just when the line without it is, in the
same way, and the comment stays behind it. -/
theorem version_commented (hcomment : (splitComment target).2 = [])
    (hquote : (LineState.initial.after target).quote = none) (comment token : Text) :
    (∀ kind, classify (commented target comment) = .ok kind ↔ classify target = .ok kind) ∧
    ∀ out, version (commented target comment) token = .ok out ↔
      ∃ plain, version target token = .ok plain ∧ out = commented plain comment := by
  have hnone := cutComment?_eq_none hcomment
  have hplain : splitComment target = (target, []) := by rw [splitComment, hnone]
  obtain ⟨blanks, ht, hb, hcut⟩ := splitComment_commented hnone hquote comment
  have hkind : ∀ kind, classify (commented target comment) = .ok kind ↔
      classify target = .ok kind := by
    intro kind
    have hcore := core_append (fun c hc => isDelimiter_of_isBlank (hb c hc)) target.trimEnd
    rw [← ht] at hcore
    rw [classify_eq_ok_iff, classify_eq_ok_iff, hcut, hplain, hcore]
  have hcode : ∀ kind,
      intoCode kind target token = intoCode kind target.trimEnd token ++ blanks := by
    intro kind
    have hc := intoCode_append hb kind target.trimEnd token
    rwa [← ht] at hc
  refine ⟨hkind, fun out => ?_⟩
  rw [version_eq_ok_iff, hcut]
  constructor
  · intro h
    obtain ⟨kind, hk, rfl⟩ := h
    refine ⟨intoCode kind target token,
      version_eq_ok_iff.mpr ⟨kind, (hkind kind).mp hk, by simp [hplain]⟩, ?_⟩
    rw [hcode, commented, commented, List.append_assoc]
  · intro h
    obtain ⟨plain, hv, rfl⟩ := h
    obtain ⟨kind, hk, rfl⟩ := version_eq_ok_iff.mp hv
    refine ⟨kind, (hkind kind).mpr hk, ?_⟩
    rw [hplain, hcode, List.append_nil, commented, commented, List.append_assoc]

/-- A property with a template, and blanks at both ends of the line. -/
def templateLine : Text := "  templateUrl: 'a/b.html?x=1',  "

/-- The comment looks like a target with a query and a comment of its own. -/
theorem version_commented_template :
    let comment : Text := " see \"c/d.js?y#z // e"
    let plain : Text := "templateUrl: 'a/b.html?x=1&v=7',  "
    (splitComment templateLine).2 = [] ∧ (LineState.initial.after templateLine).quote = none ∧
    version templateLine ['7'] = .ok plain ∧
    (∀ kind, classify (commented templateLine comment) = .ok kind ↔
      classify templateLine = .ok kind) ∧
    version (commented templateLine comment) ['7'] = .ok (commented plain comment) := by
  intro comment plain
  have hcomment : (splitComment templateLine).2 = [] := by decide +kernel
  have hquote : (LineState.initial.after templateLine).quote = none := by decide +kernel
  have hplain : version templateLine ['7'] = .ok plain := by decide +kernel
  have h := version_commented hcomment hquote comment ['7']
  exact ⟨hcomment, hquote, hplain, h.1, (h.2 _).mpr ⟨plain, hplain, rfl⟩⟩

end SourceMarks.Version
