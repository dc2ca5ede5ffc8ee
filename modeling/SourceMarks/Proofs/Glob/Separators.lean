import SourceMarks.Proofs.Glob.Reading

/-!
How many separators a pattern can match. Alternatives stand for one of their branches at a time, so
a pattern without double stars, sets and escapes takes no more separators than it has, and what it
takes begins with its plain folders.
-/
namespace SourceMarks.Glob
variable {d next final : Draft} {prev : Option Char} {c : Char} {lead rest pattern t f : Text}
  {k m n : Nat}
  {token : Token} {base branch tokens : List Token} {openings outer : List Opening} {o : Opening}

/-- The tokens of a branch, given from the end, take at most so many separators. -/
def AtMost (n : Nat) (branch : List Token) : Prop :=
  ∀ w, TokensTake branch.reverse w → w.count 47 ≤ n

/-- What was read behind the tokens in front takes at most so many separators. Of the alternatives
in open braces only one counts. -/
def Within (base : List Token) : Nat → List Token → List Opening → Prop
  | n, branch, [] => ∃ more, branch = more ++ base ∧ AtMost n more
  | n, branch, o :: outer =>
    ∃ k m, k + m ≤ n ∧ (∀ b ∈ branch :: o.finished, AtMost k b) ∧ Within base m o.before outer

section AtMost

theorem AtMost.nil (n : Nat) : AtMost n [] := by
  rintro w rfl
  exact Nat.zero_le n

theorem AtMost.mono (h : AtMost m branch) (hle : m ≤ n) : AtMost n branch :=
  fun w hw => Nat.le_trans (h w hw) hle

theorem AtMost.cons (h : AtMost n branch) (ht : ∀ w, token.expression.Takes w → w.count 47 ≤ k) :
    AtMost (n + k) (token :: branch) := by
  intro w hw
  rw [List.reverse_cons, tokensTake_append] at hw
  obtain ⟨u, v, rfl, hu, x, y, rfl, hx, rfl⟩ := hw
  have hn := h u hu
  have hk := ht x hx
  rw [List.count_append, List.append_nil]
  omega

/-- A double star at the beginning takes any number of separators. -/
theorem not_atMost_leading (n : Nat) : ¬ AtMost n [.leading] := by
  intro h
  have htake : TokensTake [.leading] (List.replicate n 47 ++ [47]) :=
    ⟨_, [], (List.append_nil _).symm, takes_leading.mpr (Or.inr ⟨_, rfl⟩), rfl⟩
  have hcount := h _ htake
  rw [List.count_append, List.count_replicate_self, List.count_singleton_self] at hcount
  omega

/-- Alternatives take no more than each branch may. -/
theorem count_of_takes_group {branches : List (List Token)} (h : ∀ b ∈ branches, AtMost n b)
    {w : List UInt8} (hw : (Expression.anyOf
      ((branches.reverse.map Draft.expressionOf).filter (!·.isEmpty))).Takes w) :
        w.count 47 ≤ n := by
  obtain rfl | ⟨e, he, hw⟩ := Expression.takes_anyOf hw
  · exact Nat.zero_le n
  · obtain ⟨b, hb, rfl⟩ := List.mem_map.mp (List.mem_of_mem_filter he)
    exact h b (List.mem_reverse.mp hb) w (takes_expressionOf.mp hw)

end AtMost

section Within

theorem Within.mono (h : Within base m branch openings) (hle : m ≤ n) :
    Within base n branch openings := by
  cases openings with
  | nil =>
    obtain ⟨more, hbranch, hmore⟩ := h
    exact ⟨more, hbranch, hmore.mono hle⟩
  | cons o outer =>
    obtain ⟨k, m', hsum, hall, hbefore⟩ := h
    exact ⟨k, m', Nat.le_trans hsum hle, hall, hbefore⟩

theorem Within.push (h : Within base n branch openings)
    (ht : ∀ w, token.expression.Takes w → w.count 47 ≤ k) :
    Within base (n + k) (token :: branch) openings := by
  cases openings with
  | nil =>
    obtain ⟨more, rfl, hmore⟩ := h
    exact ⟨token :: more, rfl, hmore.cons ht⟩
  | cons o outer =>
    obtain ⟨j, m, hsum, hall, hbefore⟩ := h
    rw [List.forall_mem_cons] at hall
    refine ⟨j + k, m, by omega, List.forall_mem_cons.mpr ⟨hall.1.cons ht, fun b hb => ?_⟩, hbefore⟩
    exact (hall.2 b hb).mono (Nat.le_add_right j k)

theorem Within.enter (h : Within base n d.branch d.openings) :
    Within base n d.enter.branch d.enter.openings :=
  ⟨0, n, by omega, List.forall_mem_singleton.mpr (AtMost.nil 0), h⟩

theorem Within.literal (h : Within base n d.branch d.openings) (c : Char) :
    Within base (n + if c = '/' then 1 else 0) (.literal c :: d.branch) d.openings := by
  refine h.push fun w hw => Nat.le_of_eq ?_
  rw [takes_literal.mp hw, Text.count_utf8EncodeChar]

theorem Within.turn (h : Within base n d.branch d.openings) :
    Within base n d.turn.branch d.turn.openings := by
  obtain ⟨branch, openings⟩ := d
  cases openings with
  | nil => exact h.literal ','
  | cons o outer =>
    obtain ⟨k, m, hsum, hall, hbefore⟩ := h
    exact ⟨k, m, hsum, List.forall_mem_cons.mpr ⟨AtMost.nil k, hall⟩, hbefore⟩

theorem Within.leave (h : Within base n d.branch d.openings) (hl : d.leave? = some next) :
    Within base n next.branch next.openings := by
  obtain ⟨branch, openings⟩ := d
  cases openings with
  | nil => cases hl
  | cons o outer =>
    cases hl
    obtain ⟨k, m, hsum, hall, hbefore⟩ := h
    have hgroup : Within base (m + k) (.group _ :: o.before) outer :=
      hbefore.push fun w hw => count_of_takes_group hall hw
    exact hgroup.mono (by omega)

end Within

/-- One character adds at most itself to what may be taken. -/
theorem Within.take? (h : Within base n d.branch d.openings) (ht : d.take? c = some next) :
    Within base (n + if c = '/' then 1 else 0) next.branch next.openings := by
  have hle : n ≤ n + if c = '/' then 1 else 0 := Nat.le_add_right n _
  rw [Draft.take?] at ht
  split at ht
  · cases ht
    refine h.push fun w hw => ?_
    rw [List.count_eq_zero.mpr (takes_star.mp hw)]
    exact Nat.zero_le _
  split at ht
  · cases ht
    refine h.push fun w hw => ?_
    obtain ⟨b, hb, rfl⟩ := takes_any.mp hw
    simp [hb]
  split at ht
  · cases ht
    exact h.enter.mono hle
  split at ht
  · exact (h.leave ht).mono hle
  split at ht
  · cases ht
    exact h.turn.mono hle
  · cases ht
    exact h.literal c

theorem hasDoubleStar_cons (h : hasDoubleStar (c :: t) = false) :
    hasDoubleStar t = false ∧ (c = '*' → ∀ x ∈ t.head?, x ≠ '*') := by
  rw [hasDoubleStar.eq_def] at h
  split at h
  · cases h
  · next hne heq =>
    cases heq
    refine ⟨h, ?_⟩
    rintro rfl x hx rfl
    exact hne t.tail rfl (List.eq_cons_of_mem_head? hx)
  · next heq => cases heq

/-- A pattern without double stars, sets and escapes adds its own separators. -/
theorem Within.read (h : Within base n d.branch d.openings) (hset : '[' ∉ t) (hesc : '\\' ∉ t)
    (hd : hasDoubleStar t = false) (hr : Glob.read d prev t = .ok final) :
    ∃ more, final.branch = more ++ base ∧ AtMost (n + t.count '/') more := by
  induction t generalizing d prev n with
  | nil =>
    rw [Glob.read] at hr
    split at hr
    · next ho =>
      cases hr
      rw [List.isEmpty_iff.mp ho] at h
      exact h
    · cases hr
  | cons c t ih =>
    rw [List.mem_cons, not_or] at hset hesc
    obtain ⟨hd, hstar⟩ := hasDoubleStar_cons hd
    rw [read_one _ _ _ (Ne.symm hset.1) (Ne.symm hesc.1) hstar] at hr
    cases hnext : d.take? c with
    | none => simp [hnext] at hr
    | some next =>
      rw [hnext] at hr
      obtain ⟨more, hmore, hmost⟩ := ih (h.take? hnext) hset.2 hesc.2 hd hr
      refine ⟨more, hmore, hmost.mono ?_⟩
      rw [List.count_cons]
      simp only [beq_iff_eq]
      omega

/-- The plain folders that lead a pattern are read as they are. -/
theorem read_lead (hl : ∀ c ∈ lead, isMagic c = false ∧ c ≠ '\\')
    (h : read (draftOf tokens) prev (lead ++ rest) = .ok final) :
    ∃ prev', read (draftOf (tokens ++ lead.map .literal)) prev' rest = .ok final := by
  induction lead generalizing tokens prev with
  | nil => exact ⟨prev, by simpa using h⟩
  | cons c lead ih =>
    obtain ⟨⟨hmagic, hesc⟩, hl⟩ := List.forall_mem_cons.mp hl
    simp only [isMagic, Bool.or_eq_false_iff, decide_eq_false_iff_not] at hmagic
    obtain ⟨⟨⟨hstar, hany⟩, hset⟩, hopen⟩ := hmagic
    rw [List.cons_append, read_one _ _ _ hset hesc fun he => absurd he hstar] at h
    by_cases hclose : c = '\x7d'
    · subst hclose
      cases h
    · have htoken : charToken c = .literal c := by rw [charToken, if_neg hstar, if_neg hany]
      rw [take?_draftOf (by simp [structural, hset, hopen, hclose, hesc]), htoken] at h
      obtain ⟨prev', h⟩ := ih hl h
      exact ⟨prev', by simpa using h⟩

/-- What a compiled pattern matches begins with its plain folders, and goes on with no more
separators than the pattern does. -/
theorem exists_of_matches {e : Expression} (hl : ∀ c ∈ lead, isMagic c = false)
    (hset : '[' ∉ lead ++ rest) (hesc : '\\' ∉ lead ++ rest) (hd : hasDoubleStar rest = false)
    (he : compile (lead ++ rest) = .ok e) (hm : e.matches f = true) :
    ∃ w, f.bytes = lead.bytes ++ w ∧ w.count 47 ≤ rest.count '/' := by
  rw [List.mem_append, not_or] at hset hesc
  rw [compile] at he
  split at he
  · next final hr =>
    cases he
    have hlead : ∀ c ∈ lead, isMagic c = false ∧ c ≠ '\\' :=
      fun c hc => ⟨hl c hc, fun h => hesc.1 (h ▸ hc)⟩
    have hread : read (draftOf []) none (lead ++ rest) = .ok final := hr
    obtain ⟨prev, hr⟩ := read_lead hlead hread
    have hstart : Within (lead.map .literal).reverse 0 (draftOf (lead.map .literal)).branch [] :=
      ⟨[], rfl, AtMost.nil 0⟩
    obtain ⟨more, hmore, hmost⟩ := hstart.read hset.2 hesc.2 hd hr
    have hlone : final.branch ≠ [.leading] := by
      intro h
      rw [hmore] at h
      cases lead with
      | nil =>
        rw [List.map_nil, List.reverse_nil, List.append_nil] at h
        exact not_atMost_leading _ (h ▸ hmost)
      | cons c lead =>
        have hc : Token.literal c ∈ [Token.leading] := h ▸ by simp
        simp at hc
    rw [patternExpression] at hm
    · rw [Expression.matches, Expression.accepts_iff, takes_expressionOf, hmore,
        List.reverse_append, List.reverse_reverse, tokensTake_append] at hm
      obtain ⟨u, w, hf, hu, hw⟩ := hm
      rw [tokensTake_literals.mp hu] at hf
      exact ⟨w, hf, by simpa using hmost w hw⟩
    · exact hlone
  · cases he

end SourceMarks.Glob
