import Mathlib.Data.List.Basic
import SourceMarks.Proofs.Version.Cuts

/-!
References with a query and a fragment. Main statement: the version of a reference becomes the last
item of its query, in front of the fragment, if no slash stands behind the path.
-/
namespace SourceMarks.Version
variable {code path target token x t e quote : Text} {kind : Kind} {c q : Char}

/-- Whether a character can stand in the path of a reference. -/
def isPathChar (c : Char) : Bool := isTokenChar c || c = '/'

/-- Whether a character can stand in a query or a fragment. -/
def isItemChar (c : Char) : Bool :=
  c.isAlphanum || ['.', '_', '~', '/', '=', '&', '%', '+', ':', '@', '-'].contains c

/-- A path with a query and a fragment, in quotes or not, and what ends its line. -/
structure Reference where
  quote : Text
  path : Text
  query : Option Text
  fragment : Option Text
  tail : Text

namespace Reference

/-- A part behind the sign that opens it, if it is there. -/
def opened (sign : Char) : Option Text → Text
  | none => []
  | some part => sign :: part

/-- What stands between the path and the end. -/
def extras (r : Reference) : Text := opened '?' r.query ++ opened '#' r.fragment

/-- What closes the reference and its line. -/
def ending (r : Reference) : Text := r.quote ++ r.tail

/-- The line of a reference. -/
def text (r : Reference) : Text := r.quote ++ r.path ++ r.extras ++ r.ending

/-- The reference with a version behind the items of its query. -/
def versioned (r : Reference) (token : Text) : Reference :=
  let items := r.query.getD []
  { r with query := some ((if items = [] then [] else items ++ ['&']) ++ ['v', '='] ++ token) }

/-- The characters are those of references, and the path can be versioned. -/
structure Valid (r : Reference) : Prop where
  quote : r.quote ∈ [[], ['\''], ['"']]
  path : ∀ c ∈ r.path, isPathChar c = true
  versionable : ∃ kind, classify r.path = .ok kind
  query : ∀ items ∈ r.query, ∀ c ∈ items, isItemChar c = true
  fragment : ∀ place ∈ r.fragment, ∀ c ∈ place, isItemChar c = true
  tail : r.tail ∈ [[], [','], [';']]

end Reference

section Characters

/-- Neither a delimiter nor a backslash. -/
def IsInner (c : Char) : Prop := isDelimiter c = false ∧ c ≠ '\\'

theorem isInner_of_isAlphanum (h : c.isAlphanum = true) : IsInner c := by
  have hne : ∀ d, d.isAlphanum = false → c ≠ d :=
    fun d hd => ne_of_apply_ne Char.isAlphanum (by simp [h, hd])
  simp [IsInner, isDelimiter, isQuote, isBlank_of_isAlphanum h,
    hne _ (by decide : '\''.isAlphanum = false), hne '"' (by decide), hne '\x60' (by decide),
      hne ',' (by decide), hne ';' (by decide), hne ')' (by decide), hne '\\' (by decide)]

theorem isInner_of_isItemChar (h : isItemChar c = true) : IsInner c := by
  rw [isItemChar, Bool.or_eq_true, List.contains_iff_mem] at h
  cases h with
  | inl h => exact isInner_of_isAlphanum h
  | inr h =>
    have hall : ∀ d ∈ ['.', '_', '~', '/', '=', '&', '%', '+', ':', '@', '-'],
        isDelimiter d = false ∧ d ≠ '\\' := by simp [isDelimiter, isBlank, isQuote]
    exact hall c h

theorem isItemChar_of_isPathChar (h : isPathChar c = true) : isItemChar c = true := by
  simp only [isPathChar, isTokenChar, Bool.or_eq_true, decide_eq_true_eq] at h
  obtain ((((h | rfl) | rfl) | rfl) | rfl) := h
  · simp [isItemChar, h]
  all_goals decide

theorem opensQuery_of_isItemChar (h : isItemChar c = true) : opensQuery c = false := by
  have hne : ∀ d, isItemChar d = false → c ≠ d :=
    fun d hd => ne_of_apply_ne isItemChar (by simp [h, hd])
  simp [opensQuery, hne '?' (by decide), hne '#' (by decide)]

theorem inQuery_of_isItemChar (h : isItemChar c = true) : inQuery c = true := by
  have hq := opensQuery_of_isItemChar h
  rw [opensQuery, Bool.or_eq_false_iff] at hq
  simp [inQuery, (isInner_of_isItemChar h).1, hq.2]

end Characters

namespace Reference
variable {r : Reference} {items place : Text}

section Parts

theorem extras_of_query (hq : r.query = some items) :
    r.extras = '?' :: (items ++ opened '#' r.fragment) := by
  rw [extras, hq]
  rfl

theorem extras_of_fragment (hq : r.query = none) (hf : r.fragment = some place) :
    r.extras = '#' :: place := by
  rw [extras, hq, hf]
  rfl

theorem extras_eq_nil (hq : r.query = none) (hf : r.fragment = none) : r.extras = [] := by
  rw [extras, hq, hf]
  rfl

theorem text_of_extras (hx : r.extras = c :: x) :
    r.text = r.quote ++ r.path ++ c :: (x ++ r.ending) := by
  rw [text, hx, List.append_assoc, List.cons_append]

end Parts

/-- A path that can be versioned does not begin with a comment. -/
theorem kindOf?_of_classify (hp : ∀ c ∈ path, isPathChar c = true) (h : classify path = .ok kind) :
    kindOf? path = some kind ∧ ¬ ['/', '/'] <+: path := by
  rw [classify_eq_ok_iff] at h
  by_cases hn : ['/', '/'] <+: path
  · rw [splitComment_of_opens hn] at h
    cases h
  · have hinner : ∀ c ∈ path, isDelimiter c = false := fun c hc =>
      (isInner_of_isItemChar (isItemChar_of_isPathChar (hp c hc))).1
    have hcomment : cutComment? .initial (path ++ []) = none :=
      cutComment?_initial (by simpa using hn) hinner (by simp)
    have hcore : Text.dropEnd isDelimiter (path ++ []) = path :=
      Text.dropEnd_append (fun c hc => hinner c (List.mem_of_getLast? hc)) (by simp)
    rw [List.append_nil] at hcomment hcore
    rw [splitComment_of_none hcomment, splitQuery_of_forall fun c hc =>
      opensQuery_of_isItemChar (isItemChar_of_isPathChar (hp c hc)), hcore] at h
    exact ⟨h, hn⟩

section Valid
variable (h : r.Valid)
include h

theorem Valid.mem_quote (hc : c ∈ r.quote) : c ∈ ['\'', '"'] := by
  have hq := h.quote
  simp only [List.mem_cons, List.not_mem_nil, or_false] at hq
  obtain hq | hq | hq := hq <;> simp_all

theorem Valid.quote_cases : r.quote = [] ∨ ∃ q, isQuote q = true ∧ r.quote = [q] := by
  have hq := h.quote
  simp only [List.mem_cons, List.not_mem_nil, or_false] at hq
  obtain hq | hq | hq := hq
  · exact Or.inl hq
  · exact Or.inr ⟨_, by decide, hq⟩
  · exact Or.inr ⟨_, by decide, hq⟩

theorem Valid.mem_ending (hc : c ∈ r.ending) : c ∈ ['\'', '"', ',', ';'] := by
  cases List.mem_append.mp hc with
  | inl hc => exact List.mem_append_left [',', ';'] (h.mem_quote hc)
  | inr hc =>
    have ht := h.tail
    simp only [List.mem_cons, List.not_mem_nil, or_false] at ht
    obtain ht | ht | ht := ht <;> simp_all

/-- What ends the line is trimmed from a path, belongs to no piece of it and opens no query. -/
theorem Valid.ending_spec : ∀ c ∈ r.ending,
    isDelimiter c = true ∧ isTokenChar c = false ∧ opensQuery c = false := by
  have hall : ∀ d ∈ ['\'', '"', ',', ';'],
      isDelimiter d = true ∧ isTokenChar d = false ∧ opensQuery d = false := by
    simp [isDelimiter, isBlank, isQuote, isTokenChar, opensQuery]
  exact fun c hc => hall c (h.mem_ending hc)

theorem Valid.isItemChar_path (hc : c ∈ r.path) : isItemChar c = true :=
  isItemChar_of_isPathChar (h.path c hc)

theorem Valid.mem_extras (hc : c ∈ r.extras) : opensQuery c = true ∨ isItemChar c = true := by
  have hopened : ∀ sign part,
      opensQuery sign = true → (∀ items ∈ part, ∀ c ∈ items, isItemChar c = true) →
      c ∈ opened sign part → opensQuery c = true ∨ isItemChar c = true := by
    intro sign part hsign hpart hm
    cases part with
    | none => cases hm
    | some items =>
      cases List.mem_cons.mp hm with
      | inl hm => exact Or.inl (hm ▸ hsign)
      | inr hm => exact Or.inr (hpart items rfl c hm)
  cases List.mem_append.mp hc with
  | inl hc => exact hopened '?' r.query rfl h.query hc
  | inr hc => exact hopened '#' r.fragment rfl h.fragment hc

theorem Valid.isInner_extras (hc : c ∈ r.extras) : IsInner c := by
  cases h.mem_extras hc with
  | inl hc =>
    simp only [opensQuery, Bool.or_eq_true, decide_eq_true_eq] at hc
    obtain rfl | rfl := hc <;> exact ⟨by decide, by decide⟩
  | inr hc => exact isInner_of_isItemChar hc

theorem Valid.isInner_body : ∀ c ∈ r.path ++ r.extras, IsInner c := by
  intro c hc
  cases List.mem_append.mp hc with
  | inl hc => exact isInner_of_isItemChar (h.isItemChar_path hc)
  | inr hc => exact h.isInner_extras hc

theorem Valid.slash_not_mem_ending : '/' ∉ r.ending :=
  fun hm => absurd (h.mem_ending hm) (by decide)

/-- Behind the path a query or a fragment is opened, or the reference ends. -/
theorem Valid.head_behind :
    ∀ c ∈ (r.extras ++ r.ending).head?, opensQuery c = true ∨ isDelimiter c = true := by
  intro c hc
  cases hx : r.extras with
  | nil =>
    rw [hx, List.nil_append] at hc
    exact Or.inr (h.ending_spec c (List.mem_of_head? hc)).1
  | cons d more =>
    obtain rfl : d = c := by simpa [hx] using hc
    rw [extras] at hx
    cases hq : r.query <;> cases hf : r.fragment <;> simp [hq, hf, opened] at hx
    all_goals
      obtain ⟨rfl, -⟩ := hx
      exact Or.inl rfl

/-- The line of a reference has no comment. -/
theorem Valid.splitComment_text : splitComment r.text = (r.text, []) := by
  obtain ⟨kind, hk⟩ := h.versionable
  obtain ⟨-, hn⟩ := kindOf?_of_classify h.path hk
  have hinner := h.isInner_body
  have hhead : ∀ c ∈ (r.extras ++ r.ending).head?, c ∉ ['/', '/'] := by
    intro c hc hm
    obtain rfl : c = '/' := by simpa using hm
    exact absurd (h.head_behind '/' hc) (by decide)
  refine splitComment_of_none ?_
  obtain hq | ⟨q, hquote, hq⟩ := h.quote_cases
  · have hline : ¬ ['/', '/'] <+: r.path ++ r.extras ++ r.ending := by
      rw [List.append_assoc]
      exact fun hp => hn (Text.prefix_of_head_not_mem hhead hp)
    rw [text, hq, List.nil_append]
    exact cutComment?_initial hline (fun c hc => (hinner c hc).1) h.slash_not_mem_ending
  · have htail : '/' ∉ r.tail := fun hm => h.slash_not_mem_ending (List.mem_append_right _ hm)
    have hline := cutComment?_initial_quoted hquote hinner htail
    rw [text, ending, hq]
    simpa using hline

/-- The quote and the path hold no blank, and neither a question mark nor a hash sign. -/
theorem Valid.front_spec : ∀ c ∈ r.quote ++ r.path, isBlank c = false ∧ opensQuery c = false := by
  intro c hc
  cases List.mem_append.mp hc with
  | inl hc =>
    have hall : ∀ d ∈ ['\'', '"'], isBlank d = false ∧ opensQuery d = false := by
      simp [isBlank, opensQuery]
    exact hall c (h.mem_quote hc)
  | inr hc =>
    have hitem := h.isItemChar_path hc
    have hd := (isInner_of_isItemChar hitem).1
    simp only [isDelimiter, Bool.or_eq_false_iff] at hd
    exact ⟨hd.1.1.1.1, opensQuery_of_isItemChar hitem⟩

/-- The path is versioned as in quotes, and its last piece consists of token characters. -/
theorem Valid.exists_kind : ∃ kind front last,
    kindOf? (r.quote ++ r.path) = some kind ∧
    (∀ e, (∀ c ∈ e, isDelimiter c = true) →
      Text.dropEnd isDelimiter (r.quote ++ r.path ++ e) = r.quote ++ r.path) ∧
    r.quote ++ r.path = front ++ kind.separator :: last ∧ kind.separator ∉ last ∧
    ∀ c ∈ last, isTokenChar c = true := by
  obtain ⟨kind, hk⟩ := h.versionable
  obtain ⟨hkind, -⟩ := kindOf?_of_classify h.path hk
  obtain ⟨x, last, hxy, hsep, hslash⟩ := exists_separator hkind
  have hne : r.path ≠ [] := by simp [hxy]
  have hquote : '/' ∉ r.quote ∧ '.' ∉ r.quote :=
    ⟨fun hm => absurd (h.mem_quote hm) (by decide), fun hm => absurd (h.mem_quote hm) (by decide)⟩
  refine ⟨kind, r.quote ++ x, last, (kindOf?_append hquote hne).trans hkind, fun e he => ?_,
    ?_, hsep, ?_⟩
  · refine Text.dropEnd_append (fun c hc => ?_) he
    rw [List.getLast?_append, List.getLast?_eq_some_getLast hne, Option.some_or,
      ← List.getLast?_eq_some_getLast hne] at hc
    exact (isInner_of_isItemChar (h.isItemChar_path (List.mem_of_getLast? hc))).1
  · rw [hxy, List.append_assoc]
  · intro c hc
    have hpath := h.path c (hxy ▸ by simp [hc])
    have hc : c ≠ '/' := fun he => hslash (he ▸ hc)
    simpa [isPathChar, hc] using hpath

theorem Valid.trimStart_front (t : Text) :
    (r.quote ++ r.path ++ t).trimStart = r.quote ++ r.path ++ t := by
  obtain ⟨kind, front, last, -, -, hpath, -, -⟩ := h.exists_kind
  have hsep : kind.separator ∈ r.quote ++ r.path := by simp [hpath]
  rw [Text.trimStart_append hsep (isBlank_separator kind),
    Text.trimStart_of_forall fun c hc => (h.front_spec c hc).1]

theorem Valid.isDelimiter_ending : ∀ c ∈ r.ending, isDelimiter c = true :=
  fun c hc => (h.ending_spec c hc).1

theorem Valid.isTokenChar_ending : ∀ c ∈ r.ending, isTokenChar c = false :=
  fun c hc => (h.ending_spec c hc).2.1

theorem Valid.opensQuery_ending : ∀ c ∈ r.ending, opensQuery c = false :=
  fun c hc => (h.ending_spec c hc).2.2

theorem Valid.not_mem_front (hc : opensQuery c = true) : c ∉ r.quote ++ r.path := by
  intro hm
  rw [(h.front_spec c hm).2] at hc
  cases hc

theorem Valid.not_mem_ending (hc : opensQuery c = true) : c ∉ r.ending := by
  intro hm
  rw [h.opensQuery_ending c hm] at hc
  cases hc

/-- A version that opens a query stands behind the last piece of the path. -/
theorem Valid.version_opens {kind : Kind} {front last e rest : Text}
    (hpath : r.quote ++ r.path = front ++ kind.separator :: last) (hsep : kind.separator ∉ last)
    (hlast : ∀ c ∈ last, isTokenChar c = true) (he : e = [] ∨ e = r.ending)
    (hq : splitQuery r.text = (r.quote ++ r.path ++ e, rest)) (hr : rest.head? ≠ some '?')
    (hk : kindOf? (Text.dropEnd isDelimiter (r.quote ++ r.path ++ e)) = some kind) (token : Text) :
    version r.text token = .ok (r.quote ++ r.path ++ ['?', 'v', '='] ++ token ++ e ++ rest) := by
  have hending : ∀ c ∈ e, c ∈ r.ending := by
    obtain rfl | rfl := he <;> simp
  have hmem : kind.separator ∉ e := by
    intro hm
    have hnot : ∀ k : Kind, k.separator ∉ ['\'', '"', ',', ';'] := by
      intro k
      cases k <;> decide
    exact hnot kind (h.mem_ending (hending _ hm))
  have hcut :
      cutLast kind.separator (r.quote ++ r.path ++ e) = (front ++ [kind.separator], last ++ e) := by
    rw [hpath, List.append_assoc, List.cons_append]
    exact cutLast_eq (by simp [hsep, hmem]) front
  have hblank : (front ++ [kind.separator]).trimStart = front ++ [kind.separator] := by
    refine Text.trimStart_of_forall fun c hc => (h.front_spec c ?_).1
    rw [hpath]
    simp only [List.mem_append, List.mem_cons, List.not_mem_nil, or_false] at hc ⊢
    exact hc.imp_right Or.inl
  have hhead : ∀ c ∈ e.head?, isTokenChar c = false :=
    fun c hc => h.isTokenChar_ending c (hending c (List.mem_of_head? hc))
  rw [version_of_segment h.splitComment_text hq hk hr, hcut]
  dsimp only
  rw [hblank, intoSegment, Marker.takeWhile_of_head hlast hhead,
    Marker.dropWhile_of_head hlast hhead, hpath]
  simp

/-- Without slashes behind the path the query is seen, and the version goes on after its items. -/
theorem Valid.version_text_of_query (hs : '/' ∉ r.extras) (hq : r.query = some items)
    (token : Text) :
    version r.text token = .ok (r.versioned token).text := by
  obtain ⟨kind, -, -, hk, hcore, -, -, -⟩ := h.exists_kind
  have hx := extras_of_query hq
  have hinner : ∀ c ∈ r.extras, isDelimiter c = false := fun c hc => (h.isInner_extras hc).1
  have hitems : ∀ c ∈ items, inQuery c = true :=
    fun c hc => inQuery_of_isItemChar (h.query items hq c hc)
  have hhead : ∀ c ∈ (opened '#' r.fragment ++ r.ending).head?, inQuery c = false := by
    cases r.fragment with
    | some place => simp [opened, inQuery]
    | none =>
      intro c hc
      simp [inQuery, h.isDelimiter_ending c (List.mem_of_head? hc)]
  rw [hx] at hs hinner
  have hsplit : splitQuery r.text =
      (r.quote ++ r.path, '?' :: (items ++ (opened '#' r.fragment ++ r.ending))) := by
    rw [text, hx, splitQuery_of_opens (fun c hc => (h.front_spec c hc).2) rfl hs hinner
      h.isDelimiter_ending]
    simp
  have hcore := hcore [] (by simp)
  rw [List.append_nil] at hcore
  rw [version_of_query h.splitComment_text hsplit (hcore.symm ▸ hk) rfl,
    Text.trimStart_of_forall fun c hc => (h.front_spec c hc).1, intoQuery_eq,
    Marker.takeWhile_of_head hitems hhead, Marker.dropWhile_of_head hitems hhead]
  cases items <;> simp [text, versioned, extras, ending, opened, hq]

/-- Without a query the version opens one, in front of a fragment without slashes. -/
theorem Valid.version_text_of_no_query (hs : '/' ∉ r.extras) (hq : r.query = none) (token : Text) :
    version r.text token = .ok (r.versioned token).text := by
  obtain ⟨kind, front, last, hk, hcore, hpath, hsep, hlast⟩ := h.exists_kind
  have hopens : ∀ c ∈ r.quote ++ r.path, opensQuery c = false := fun c hc => (h.front_spec c hc).2
  have hversioned : (r.versioned token).text =
      r.quote ++ r.path ++ ['?', 'v', '='] ++ token ++ opened '#' r.fragment ++ r.ending := by
    simp [text, versioned, extras, ending, opened, hq]
  rw [hversioned]
  cases hf : r.fragment with
  | none =>
    have hsplit : splitQuery r.text = (r.quote ++ r.path ++ r.ending, []) := by
      rw [text, extras_eq_nil hq hf, List.append_nil]
      refine splitQuery_of_forall fun c hc => ?_
      cases List.mem_append.mp hc with
      | inl hc => exact hopens c hc
      | inr hc => exact h.opensQuery_ending c hc
    rw [h.version_opens hpath hsep hlast (Or.inr rfl) hsplit (by simp)
      (by rwa [hcore r.ending h.isDelimiter_ending])]
    simp [opened]
  | some place =>
    have hx := extras_of_fragment hq hf
    have hinner : ∀ c ∈ r.extras, isDelimiter c = false := fun c hc => (h.isInner_extras hc).1
    rw [hx] at hs hinner
    have hsplit : splitQuery r.text = (r.quote ++ r.path ++ [], '#' :: place ++ r.ending) := by
      rw [text, hx, List.append_nil]
      exact splitQuery_of_opens hopens rfl hs hinner h.isDelimiter_ending
    rw [h.version_opens hpath hsep hlast (Or.inl rfl) hsplit (by simp)
      (by rwa [hcore [] (by simp)])]
    simp [opened]

end Valid

/-- What holds a character ends no earlier than the text in front of it. -/
theorem exists_behind {a b x y : Text} {d : Char} (hb : d ∈ b) (hy : d ∉ y)
    (heq : a ++ c :: b = x ++ y) :
    ∃ more, x = a ++ c :: more := by
  obtain ⟨front, rfl, hf⟩ | ⟨back, -, rfl⟩ := List.append_eq_append_iff.mp heq
  · cases front with
    | nil =>
      obtain rfl : c :: b = y := hf
      exact absurd (List.mem_cons_of_mem c hb) hy
    | cons d more =>
      obtain rfl : c = d := (List.cons.inj hf).1
      exact ⟨more, rfl⟩
  · exact absurd (List.mem_append_right back (List.mem_cons_of_mem c hb)) hy

section Slash
variable (h : r.Valid) (hs : '/' ∈ r.extras)
include h hs

/-- A sign that opens what holds a slash does not begin the rest of the code. -/
theorem head?_rest_ne {sign : Char} {part : Text} (hx : r.extras = sign :: part)
    (hpart : sign ∉ part) (hsign : opensQuery sign = true) :
    (splitQuery r.text).2.head? ≠ some sign := by
  intro hhead
  obtain ⟨more, hmore⟩ := List.head?_eq_some_iff.mp hhead
  have hsplit := splitQuery_append r.text
  have hrest := (splitQuery_rest r.text).1
  rw [hmore] at hsplit hrest
  have hback : sign ∉ part ++ r.ending := by
    rw [List.mem_append, not_or]
    exact ⟨hpart, h.not_mem_ending hsign⟩
  obtain ⟨-, -, hmore⟩ := (List.append_cons_inj_of_notMem (h.not_mem_front hsign) hback).mp
    ((text_of_extras hx).symm.trans hsplit.symm)
  rw [hx, List.mem_cons] at hs
  rw [← hmore] at hrest
  refine hrest ?_
  cases hs with
  | inl he =>
    rw [← he] at hsign
    cases hsign
  | inr hs => exact List.mem_cons_of_mem _ (List.mem_append_left _ hs)

/-- With a slash behind its path, the query of a reference is not seen, and a second one is
opened. -/
theorem version_text_ne_of_query (hq : r.query = some items) (token : Text) :
    version r.text token ≠ .ok (r.versioned token).text := by
  have hx := extras_of_query hq
  have hpart : '?' ∉ items ++ opened '#' r.fragment := by
    intro hm
    cases List.mem_append.mp hm with
    | inl hm => exact absurd (h.query items hq '?' hm) (by decide)
    | inr hm =>
      cases hf : r.fragment with
      | none => simp [hf, opened] at hm
      | some place =>
        have hm : '?' ∈ place := by simpa [hf, opened] using hm
        exact absurd (h.fragment place hf '?' hm) (by decide)
  have hjoiner : joiner r.text = ['?', 'v', '='] := by
    rw [joiner, h.splitComment_text]
    dsimp only
    split
    · next query hrest => exact absurd (by rw [hrest]; rfl) (head?_rest_ne h hs hx hpart rfl)
    · rfl
  intro hv
  obtain ⟨x, y, hxy, hout, -⟩ := exists_insertion hv
  rw [text, List.append_assoc, h.trimStart_front, ← List.append_assoc, ← text] at hxy
  -- The version brings a question mark of its own, which the items of a query do without.
  have hsame : (r.versioned token).text.count '?' = r.text.count '?' + token.count '?' := by
    cases items <;> simp [text, versioned, extras, ending, opened, hq, List.count_cons] <;> omega
  have hmore : (r.versioned token).text.count '?' = r.text.count '?' + token.count '?' + 1 := by
    rw [hout, hjoiner, hxy]
    simp
    omega
  omega

/-- With a slash in a fragment the version is put behind that slash, and so behind the fragment's
sign. -/
theorem version_text_ne_of_fragment (hq : r.query = none) (hf : r.fragment = some place)
    (token : Text) :
    version r.text token ≠ .ok (r.versioned token).text := by
  have hx := extras_of_fragment hq hf
  have hplace : '#' ∉ place ∧ '?' ∉ place :=
    ⟨fun hm => absurd (h.fragment place hf '#' hm) (by decide),
      fun hm => absurd (h.fragment place hf '?' hm) (by decide)⟩
  have htext := text_of_extras hx
  have hnone : '?' ∉ r.text := by
    have hfront := h.not_mem_front (c := '?') rfl
    have hending := h.not_mem_ending (c := '?') rfl
    simp only [List.mem_append, not_or] at hfront
    simp [htext, hfront, hending, hplace.2]
  have hsplit : splitQuery r.text = (r.text, []) := by
    have happend := splitQuery_append r.text
    have hopens := (splitQuery_rest r.text).2
    have hhead := head?_rest_ne h hs hx hplace.1 rfl
    generalize splitQuery r.text = parts at happend hopens hhead ⊢
    obtain ⟨path, _ | ⟨c, rest⟩⟩ := parts
    · simpa using happend
    · have hc := hopens c rfl
      simp only [opensQuery, Bool.or_eq_true, decide_eq_true_eq] at hc
      obtain rfl | rfl := hc
      · exact absurd (happend ▸ by simp) hnone
      · exact absurd rfl hhead
  intro hv
  obtain ⟨kind, hclass, -⟩ := bind_eq_ok_iff.mp (version.eq_1 r.text token ▸ hv)
  have hkind := classify_eq_ok_iff.mp hclass
  rw [h.splitComment_text, hsplit] at hkind
  obtain ⟨x, last, hcore, hsep, hslash⟩ := exists_separator hkind
  obtain ⟨e, he, hdelim⟩ := Text.exists_dropEnd isDelimiter r.text
  rw [hcore, List.append_assoc, List.cons_append] at he
  have hend : '/' ∉ e ∧ kind.separator ∉ e := by
    refine ⟨fun hm => absurd (hdelim _ hm) (by decide), fun hm => absurd (hdelim _ hm) ?_⟩
    cases kind <;> decide
  have hcut : cutLast kind.separator r.text = (x ++ [kind.separator], last ++ e) := by
    rw [he]
    exact cutLast_eq (by simp [hsep, hend.2]) x
  -- The separator stands behind the sign, since the slash of the fragment does not follow it.
  have hmem : '/' ∈ place := by simpa [hx] using hs
  have heq :
      r.quote ++ r.path ++ '#' :: (place ++ r.ending) = x ++ [kind.separator] ++ (last ++ e) := by
    rw [← htext, he]
    simp
  obtain ⟨more, hmore⟩ := exists_behind (List.mem_append_left _ hmem) (by simp [hslash, hend.1]) heq
  rw [version_of_segment h.splitComment_text hsplit hkind (by simp), hcut] at hv
  dsimp only at hv
  rw [hmore, h.trimStart_front] at hv
  simp [text, versioned, extras, opened, hq] at hv

end Slash

/-- The version of a reference becomes the last item of its query exactly if no slash stands behind
the path. -/
theorem version_text_iff (h : r.Valid) (token : Text) :
    version r.text token = .ok (r.versioned token).text ↔ '/' ∉ r.extras := by
  constructor
  · intro hv hs
    cases hq : r.query with
    | some items => exact version_text_ne_of_query h hs hq token hv
    | none =>
      cases hf : r.fragment with
      | none => simp [extras_eq_nil hq hf] at hs
      | some place => exact version_text_ne_of_fragment h hs hq hf token hv
  · intro hs
    cases hq : r.query with
    | some items => exact h.version_text_of_query hs hq token
    | none => exact h.version_text_of_no_query hs hq token

/-- A version between a query and a fragment, in quotes and in front of a comma. -/
theorem version_text_iff_fragment :
    let r : Reference := ⟨['"'], ['a', '.', 'b'], some ['c'], some ['d'], [',']⟩
    r.Valid ∧ (r.versioned ['7']).text =
      ['"', 'a', '.', 'b', '?', 'c', '&', 'v', '=', '7', '#', 'd', '"', ','] ∧
    '/' ∉ r.extras ∧
    (version r.text ['7'] = .ok (r.versioned ['7']).text ↔ '/' ∉ r.extras) := by
  intro r
  have hr : r.Valid :=
    ⟨by decide, by simp [r, isPathChar, isTokenChar], ⟨.extension, by decide⟩,
      by simp [r, isItemChar], by simp [r, isItemChar], by decide⟩
  exact ⟨hr, by decide, by decide, version_text_iff hr ['7']⟩

/-- A slash in a query hides the query, and the version opens another one. -/
theorem not_version_text :
    let r : Reference := ⟨[], ['a', '/', 'b'], some ['c', '=', '/', 'd'], none, []⟩
    r.Valid ∧ (r.versioned ['7']).text =
      ['a', '/', 'b', '?', 'c', '=', '/', 'd', '&', 'v', '=', '7'] ∧
    version r.text ['7'] = .ok ['a', '/', 'b', '?', 'c', '=', '/', 'd', '?', 'v', '=', '7'] := by
  intro r
  have hr : r.Valid :=
    ⟨by decide, by simp [r, isPathChar, isTokenChar], ⟨.path, by decide⟩, by simp [r, isItemChar],
      by simp [r], by decide⟩
  exact ⟨hr, by decide, by decide⟩

end Reference

end SourceMarks.Version
