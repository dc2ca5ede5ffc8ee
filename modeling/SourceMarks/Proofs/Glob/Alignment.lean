import SourceMarks.Proofs.Glob.Language
import SourceMarks.Proofs.Glob.Segments
import SourceMarks.Proofs.Text.Split

/-!
Patterns against names, segment by segment. Main statement: the tokens of a pattern take the text of
a path if and only if its names can be aligned with the segments.
-/
namespace SourceMarks.Glob
variable {segment : Text} {segments names front back : List Text} {c : Char} {n r w : List UInt8}
  {token : Token} {tokens : List Token}

/-- The token of a character in a segment. -/
def charToken (c : Char) : Token := if c = '*' then .star else if c = '?' then .any else .literal c

/-- What stands in front of a segment: nothing, a separator, or double stars, which begin the
pattern or do not. -/
inductive Pending
  | start
  | slash
  | leading
  | between
  deriving DecidableEq

namespace Pending

def lead : Pending → List Token
  | start => []
  | slash => [.literal '/']
  | leading => [.leading]
  | between => [.between]

/-- What stands in front of the next segment if this one is a double star. -/
def pass : Pending → Pending
  | start | leading => leading
  | slash | between => between

/-- The token of a double star at the end. -/
def last : Pending → Token
  | start | leading => .leading
  | slash | between => .trailing

/-- Whether a separator leads in what follows. -/
def IsInner (p : Pending) : Prop := p = slash ∨ p = between

/-- Whether names may be passed over before the segment. -/
def Swallows (p : Pending) : Prop := p = leading ∨ p = between

/-- The text of the names that follow. -/
def textOf : Pending → List Text → Text
  | start, names | leading, names => Text.join ['/'] names
  | slash, names | between, names => names.flatMap fun n => '/' :: n

theorem last_of_isInner {p : Pending} (hp : p.IsInner) : p.last = .trailing := by
  obtain rfl | rfl := hp <;> rfl

theorem textOf_of_isInner {p : Pending} (hp : p.IsInner) (names : List Text) :
    p.textOf names = names.flatMap fun n => '/' :: n := by
  obtain rfl | rfl := hp <;> rfl

theorem isInner_pass {p : Pending} : p.pass.IsInner ↔ p.IsInner := by
  cases p <;> simp [pass, IsInner]

theorem textOf_pass (p : Pending) (names : List Text) : p.pass.textOf names = p.textOf names := by
  cases p <;> rfl

end Pending

/-- The tokens of segments, in the order of the pattern. -/
def tokensOf : Pending → List Text → List Token
  | _, [] => []
  | p, segment :: segments =>
    if segment = doubleStar then
      if segments = [] then [p.last] else tokensOf p.pass segments
    else p.lead ++ (segment.map charToken ++ tokensOf .slash segments)

/-- Names that a path can hold between separators, of single bytes. -/
def Spelled (names : List Text) : Prop := ∀ n ∈ names, n ≠ [] ∧ '/' ∉ n ∧ Ascii n

/-- What tokens take begins where a segment may end. -/
def TakeSeparate (tokens : List Token) : Prop := ∀ w, TokensTake tokens w → ∀ b ∈ w.head?, b = 47

section Segment

/-- A token that takes no separator takes a front part of the name. -/
theorem tokensTake_inner (hr : ∀ b ∈ r.head?, b = 47)
    (ht : ∀ u, token.expression.Takes u → 47 ∉ u) : TokensTake (token :: tokens) (n ++ r) ↔
      ∃ x y, n = x ++ y ∧ token.expression.Takes x ∧ TokensTake tokens (y ++ r) := by
  rw [tokensTake_cons]
  constructor
  · rintro ⟨u, v, huv, hu, hv⟩
    have hhead : ∀ b ∈ r.head?, b ∉ u := fun b hb => hr b hb ▸ ht u hu
    obtain ⟨m, rfl⟩ := Text.prefix_of_head_not_mem hhead ⟨v, huv.symm⟩
    rw [List.append_assoc] at huv
    obtain rfl := List.append_cancel_left huv
    exact ⟨u, m, rfl, hu, hv⟩
  · rintro ⟨x, y, rfl, hx, hy⟩
    exact ⟨x, y ++ r, List.append_assoc x y r, hx, hy⟩

theorem slash_not_mem_of_takes (hc : c ≠ '/') {u : List UInt8}
    (h : (charToken c).expression.Takes u) :
    47 ∉ u := by
  rw [charToken] at h
  split at h
  · exact takes_star.mp h
  split at h
  · obtain ⟨b, hb, rfl⟩ := takes_any.mp h
    simpa using hb.symm
  · rw [takes_literal.mp h]
    exact Text.slash_not_mem_utf8EncodeChar hc

/-- A segment takes what its characters take one after the other. -/
theorem segmentTakes_cons (hn : 47 ∉ n) : SegmentTakes (c :: segment) n ↔
    ∃ x y, n = x ++ y ∧ (charToken c).expression.Takes x ∧ SegmentTakes segment y := by
  by_cases hstar : c = '*'
  · subst hstar
    rw [charToken, if_pos rfl, SegmentTakes]
    constructor
    · rintro ⟨x, y, rfl, hy⟩
      exact ⟨x, y, rfl, takes_star.mpr fun hm => hn (List.mem_append_left y hm), hy⟩
    · rintro ⟨x, y, hxy, -, hy⟩
      exact ⟨x, y, hxy, hy⟩
  by_cases hany : c = '?'
  · subst hany
    rw [charToken, if_neg (by decide), if_pos rfl, SegmentTakes]
    constructor
    · rintro ⟨b, y, rfl, hy⟩
      exact ⟨[b], y, rfl, takes_any.mpr ⟨b, fun he => hn (he ▸ List.mem_cons_self), rfl⟩, hy⟩
    · rintro ⟨_, y, hxy, hx, hy⟩
      obtain ⟨b, -, rfl⟩ := takes_any.mp hx
      exact ⟨b, y, hxy, hy⟩
  · rw [charToken, if_neg hstar, if_neg hany, segmentTakes_literal hstar hany]
    simp [takes_literal]

/-- The characters of a segment take one name, up to a separator. -/
theorem tokensTake_segment (hs : '/' ∉ segment) (hn : 47 ∉ n) (hr : ∀ b ∈ r.head?, b = 47)
    (ht : TakeSeparate tokens) : TokensTake (segment.map charToken ++ tokens) (n ++ r) ↔
      SegmentTakes segment n ∧ TokensTake tokens r := by
  induction segment generalizing n with
  | nil =>
    rw [List.map_nil, List.nil_append, SegmentTakes]
    constructor
    · intro h
      have hnil : n = [] := by
        cases n with
        | nil => rfl
        | cons b n => exact absurd (ht _ h b rfl ▸ List.mem_cons_self) hn
      subst hnil
      exact ⟨rfl, h⟩
    · rintro ⟨rfl, h⟩
      exact h
  | cons c segment ih =>
    have hcs : c ≠ '/' := fun e => hs (e ▸ List.mem_cons_self)
    have ih : ∀ {x y}, n = x ++ y → (TokensTake (segment.map charToken ++ tokens) (y ++ r) ↔
        SegmentTakes segment y ∧ TokensTake tokens r) := by
      rintro x y rfl
      exact ih (List.not_mem_of_not_mem_cons hs) fun hm => hn (List.mem_append_right x hm)
    rw [List.map_cons, List.cons_append, tokensTake_inner hr fun u => slash_not_mem_of_takes hcs,
      segmentTakes_cons hn]
    constructor
    · rintro ⟨x, y, hxy, hx, hy⟩
      obtain ⟨hy, h⟩ := (ih hxy).mp hy
      exact ⟨⟨x, y, hxy, hx, hy⟩, h⟩
    · rintro ⟨⟨x, y, hxy, hx, hy⟩, h⟩
      exact ⟨x, y, hxy, hx, (ih hxy).mpr ⟨hy, h⟩⟩

end Segment

/-- The separator and the bytes behind it lie in the text of names where a name ends. -/
theorem exists_join_eq (hs : ∀ n ∈ names, '/' ∉ n) {P : List UInt8 → Prop} :
    (∃ x v, (Text.join ['/'] names).bytes = x ++ 47 :: v ∧ P v) ↔
      ∃ front back, names = front ++ back ∧ front ≠ [] ∧ back ≠ [] ∧
        P (Text.join ['/'] back).bytes := by
  constructor
  · rintro ⟨_, _, hbytes, hv⟩
    obtain ⟨x, v, hxv, rfl, rfl⟩ := Text.exists_of_bytes_slash hbytes
    have hn : names ≠ [] := by
      rintro rfl
      simp [Text.join] at hxv
    refine ⟨Text.split '/' x, Text.split '/' v, ?_, Text.split_ne_nil '/' x,
      Text.split_ne_nil '/' v, (Text.join_split '/' v).symm ▸ hv⟩
    rw [← Text.split_append, ← hxv, Text.split_join hs hn]
  · rintro ⟨front, back, rfl, hf, hb, h⟩
    refine ⟨(Text.join ['/'] front).bytes, _, ?_, h⟩
    rw [Text.join_append _ hf hb, Text.bytes_append, Text.bytes_append, List.append_assoc]
    rfl

/-- The text of names behind a separator. -/
theorem flatMap_slash (hne : names ≠ []) :
    (names.flatMap fun n => '/' :: n) = '/' :: Text.join ['/'] names := by
  obtain ⟨n, names, rfl⟩ := List.exists_cons_of_ne_nil hne
  rw [List.flatMap_cons, Text.join_cons]
  rfl

theorem bytes_slash_cons (t : Text) : Text.bytes ('/' :: t) = 47 :: t.bytes := Text.bytes_cons '/' t

section Lead
variable {p : Pending} (hs : ∀ n ∈ names, '/' ∉ n) (hne : names ≠ [])
include hs hne

/-- Double stars in front of tokens pass over the first names, or over none. -/
theorem tokensTake_swallow : (TokensTake tokens (Text.join ['/'] names).bytes ∨
    ∃ x v, (Text.join ['/'] names).bytes = x ++ 47 :: v ∧ TokensTake tokens v) ↔
      ∃ front back, names = front ++ back ∧ back ≠ [] ∧
        TokensTake tokens (Text.join ['/'] back).bytes := by
  rw [exists_join_eq hs]
  constructor
  · rintro (h | ⟨front, back, rfl, -, hb, h⟩)
    · exact ⟨[], names, rfl, hne, h⟩
    · exact ⟨front, back, rfl, hb, h⟩
  · rintro ⟨front, back, rfl, hb, h⟩
    by_cases hf : front = []
    · subst hf
      exact Or.inl h
    · exact Or.inr ⟨front, back, rfl, hf, hb, h⟩

theorem tokensTake_leading : TokensTake (.leading :: tokens) (Text.join ['/'] names).bytes ↔
    ∃ front back, names = front ++ back ∧ back ≠ [] ∧
      TokensTake tokens (Text.join ['/'] back).bytes := by
  rw [tokensTake_cons, ← tokensTake_swallow hs hne]
  constructor
  · rintro ⟨u, v, huv, hu, hv⟩
    rw [huv]
    obtain rfl | ⟨x, rfl⟩ := takes_leading.mp hu
    · exact Or.inl hv
    · exact Or.inr ⟨x, v, by simp, hv⟩
  · rintro (h | ⟨x, v, hxv, hv⟩)
    · exact ⟨[], _, rfl, takes_leading.mpr (Or.inl rfl), h⟩
    · rw [hxv, List.append_cons]
      exact ⟨x ++ [47], v, rfl, takes_leading.mpr (Or.inr ⟨x, rfl⟩), hv⟩

theorem tokensTake_between : TokensTake (.between :: tokens) (47 :: (Text.join ['/'] names).bytes) ↔
    ∃ front back, names = front ++ back ∧ back ≠ [] ∧
      TokensTake tokens (Text.join ['/'] back).bytes := by
  rw [tokensTake_cons, ← tokensTake_swallow hs hne]
  constructor
  · rintro ⟨u, v, huv, hu, hv⟩
    obtain rfl | ⟨x, rfl⟩ := takes_between.mp hu
    · cases huv
      exact Or.inl hv
    · rw [List.cons_append, List.cons.injEq, List.append_assoc] at huv
      exact Or.inr ⟨x, v, huv.2, hv⟩
  · rintro (h | ⟨x, v, hxv, hv⟩)
    · exact ⟨[47], _, rfl, takes_between.mpr (Or.inl rfl), h⟩
    · rw [hxv, List.append_cons]
      exact ⟨47 :: (x ++ [47]), v, rfl, takes_between.mpr (Or.inr ⟨x, rfl⟩), hv⟩

omit hs hne in
/-- Where no names may be passed over, all of them are left. -/
theorem Pending.stay (h : ¬ p.Swallows) {P : List Text → Prop} :
    (∃ front back, names = front ++ back ∧ (front ≠ [] → p.Swallows) ∧ P back) ↔ P names := by
  constructor
  · rintro ⟨front, back, rfl, hf, hb⟩
    obtain rfl : front = [] := by
      by_contra hn
      exact h (hf hn)
    exact hb
  · exact fun hp => ⟨[], names, rfl, fun hn => absurd rfl hn, hp⟩

/-- What stands in front of tokens passes over the names that it may pass over. -/
theorem tokensTake_lead : TokensTake (p.lead ++ tokens) (p.textOf names).bytes ↔
    ∃ front back, names = front ++ back ∧ (front ≠ [] → p.Swallows) ∧ back ≠ [] ∧
      TokensTake tokens (Text.join ['/'] back).bytes := by
  cases p with
  | start =>
    rw [Pending.stay (by simp [Pending.Swallows]), and_iff_right hne]
    rfl
  | slash =>
    rw [Pending.stay (by simp [Pending.Swallows]), and_iff_right hne, Pending.lead,
      List.singleton_append, Pending.textOf, flatMap_slash hne, tokensTake_cons, bytes_slash_cons]
    constructor
    · rintro ⟨u, v, huv, hu, hv⟩
      rw [takes_literal.mp hu] at huv
      cases huv
      exact hv
    · exact fun h => ⟨[47], _, rfl, takes_literal.mpr rfl, h⟩
  | leading =>
    rw [Pending.lead, List.singleton_append, Pending.textOf, tokensTake_leading hs hne]
    simp [Pending.Swallows]
  | between =>
    rw [Pending.lead, List.singleton_append, Pending.textOf, flatMap_slash hne, bytes_slash_cons,
      tokensTake_between hs hne]
    simp [Pending.Swallows]

end Lead

/-- The reading of segments behind what stands in front of them. -/
def Pending.Means (p : Pending) (segments names : List Text) : Prop :=
  ∃ front back, names = front ++ back ∧ (front ≠ [] → p.Swallows) ∧ AlignedBy Fits segments back

theorem Pending.means_pass {p : Pending} (hs : segments ≠ []) :
    p.pass.Means segments names ↔ p.Means (doubleStar :: segments) names := by
  have hp : p.pass.Swallows := by cases p <;> simp [pass, Swallows]
  simp only [Means, alignedBy_doubleStar fits_doubleStar]
  constructor
  · rintro ⟨front, back, rfl, -, ha⟩
    exact ⟨[], front ++ back, rfl, fun hn => absurd rfl hn, front, back, rfl,
      fun h => absurd h hs, ha⟩
  · rintro ⟨front, _, rfl, -, more, back, rfl, -, ha⟩
    exact ⟨front ++ more, back, by simp, fun _ => hp, ha⟩

theorem Pending.means_last {p : Pending} : p.Means [doubleStar] names ↔ names ≠ [] := by
  simp only [Means, alignedBy_last fits_doubleStar]
  constructor
  · rintro ⟨front, back, rfl, -, hb⟩ he
    exact hb (List.append_eq_nil_iff.mp he).2
  · exact fun h => ⟨[], names, rfl, fun hn => absurd rfl hn, h⟩

/-- What the tokens behind a segment take begins with a separator. -/
theorem exists_of_tokensTake {p : Pending} (hp : p.IsInner) (hn : segments ≠ [])
    (h : TokensTake (tokensOf p segments) w) : ∃ x, w = 47 :: x := by
  have hhead : ∀ {token tokens}, (∀ u, token.expression.Takes u → ∃ x, u = 47 :: x) →
      TokensTake (token :: tokens) w → ∃ x, w = 47 :: x := by
    rintro token tokens htoken ⟨u, v, rfl, hu, -⟩
    obtain ⟨x, rfl⟩ := htoken u hu
    exact ⟨x ++ v, rfl⟩
  induction segments generalizing p with
  | nil => exact absurd rfl hn
  | cons segment segments ih =>
    rw [tokensOf] at h
    split at h
    · split at h
      · rw [Pending.last_of_isInner hp] at h
        exact hhead (fun u => takes_trailing.mp) h
      · next hs => exact ih (Pending.isInner_pass.mpr hp) hs h
    · obtain rfl | rfl := hp
      · exact hhead (fun u hu => ⟨[], by rw [takes_literal.mp hu]; rfl⟩) h
      · refine hhead (fun u hu => ?_) h
        obtain rfl | ⟨x, rfl⟩ := takes_between.mp hu
        · exact ⟨[], rfl⟩
        · exact ⟨_, rfl⟩

theorem takeSeparate_tokensOf : TakeSeparate (tokensOf .slash segments) := by
  intro w h b hb
  by_cases hn : segments = []
  · subst hn
    obtain rfl : w = [] := h
    cases hb
  · obtain ⟨x, rfl⟩ := exists_of_tokensTake (Or.inl rfl) hn h
    exact (Option.some_inj.mp hb).symm

section Segments
variable {p : Pending}

/-- A double star at the end takes all that is left, which is something. -/
theorem tokensTake_last (hp : p.IsInner) :
    TokensTake [p.last] (p.textOf names).bytes ↔ names ≠ [] := by
  rw [Pending.textOf_of_isInner hp, Pending.last_of_isInner hp, tokensTake_cons]
  constructor
  · rintro ⟨u, v, huv, hu, rfl⟩ rfl
    obtain ⟨x, rfl⟩ := takes_trailing.mp hu
    cases huv
  · intro hne
    rw [flatMap_slash hne, bytes_slash_cons]
    exact ⟨_, [], (List.append_nil _).symm, takes_trailing.mpr ⟨_, rfl⟩, rfl⟩

/-- A segment with no double star takes the first name. -/
theorem tokensTake_front {n : Text} (hslash : '/' ∉ segment) (hn : '/' ∉ n) :
    TokensTake (segment.map charToken ++ tokensOf .slash segments)
      (Text.join ['/'] (n :: back)).bytes ↔
      Fits segment n ∧ TokensTake (tokensOf .slash segments) (Pending.slash.textOf back).bytes := by
  have hj : Text.join ['/'] (n :: back) = n ++ Pending.slash.textOf back :=
    Text.join_cons ['/'] n back
  have hhead : ∀ b ∈ (Pending.slash.textOf back).bytes.head?, b = 47 := by
    intro b hb
    cases back with
    | nil => cases hb
    | cons m back => exact (Option.some_inj.mp hb).symm
  rw [hj, Text.bytes_append]
  exact tokensTake_segment hslash (fun hm => hn (Text.slash_mem_bytes.mp hm)) hhead
    takeSeparate_tokensOf

/-- Without names there is nothing for segments to take. -/
theorem tokensTake_no_names (hp : p.IsInner) (hn : segments ≠ []) :
    TokensTake (tokensOf p segments) (p.textOf []).bytes ↔ p.Means segments [] := by
  constructor
  · intro h
    rw [Pending.textOf_of_isInner hp] at h
    obtain ⟨x, hx⟩ := exists_of_tokensTake hp hn h
    cases hx
  · intro ⟨front, back, he, _, h⟩
    obtain ⟨-, rfl⟩ := List.append_eq_nil_iff.mp he.symm
    exact absurd h (alignedBy_nil hn)

/-- The tokens of segments take the text of names if the names can be aligned with them. A pattern
of double stars only is not looked at here. -/
theorem tokensTake_tokensOf (hseg : ∀ s ∈ segments, '/' ∉ s) (hs : ∀ n ∈ names, '/' ∉ n)
    (hn : segments ≠ []) (hne : names ≠ [] ∨ p.IsInner)
    (hd : p.IsInner ∨ ∃ s ∈ segments, s ≠ doubleStar) :
    TokensTake (tokensOf p segments) (p.textOf names).bytes ↔ p.Means segments names := by
  induction segments generalizing p names with
  | nil => exact absurd rfl hn
  | cons segment segments ih =>
    by_cases hnames : names = []
    · subst hnames
      exact tokensTake_no_names (hne.resolve_left (by simp)) hn
    rw [List.forall_mem_cons] at hseg
    obtain ⟨hslash, hseg⟩ := hseg
    rw [tokensOf]
    by_cases hds : segment = doubleStar
    · subst hds
      rw [if_pos rfl]
      by_cases hnil : segments = []
      · subst hnil
        rw [if_pos rfl, tokensTake_last (hd.resolve_right (by simp)), Pending.means_last]
      · rw [if_neg hnil, ← Pending.means_pass hnil, ← Pending.textOf_pass]
        refine ih hseg hs hnil (Or.inl hnames) ?_
        simpa [Pending.isInner_pass] using hd
    · have hback : ∀ {back : List Text},
          (∀ n ∈ back, '/' ∉ n) → (TokensTake (tokensOf .slash segments)
          (Pending.slash.textOf back).bytes ↔ AlignedBy Fits segments back) := by
        intro back hb
        by_cases hnil : segments = []
        · subst hnil
          cases back <;> simp [tokensOf, tokensTake_nil, AlignedBy, Pending.textOf, Text.bytes]
        · rw [ih hseg hb hnil (Or.inr (Or.inl rfl)) (Or.inl (Or.inl rfl))]
          exact Pending.stay (by simp [Pending.Swallows])
      rw [if_neg hds, tokensTake_lead hs hnames, Pending.Means]
      -- The names passed over are the same on both sides, so the rest is about the first name left.
      refine exists_congr fun front => exists_congr fun back => and_congr_right fun he =>
        and_congr_right fun _ => ?_
      subst he
      cases back with
      | nil => simp [alignedBy_nil]
      | cons n back =>
        have hs := (List.forall_mem_cons.mp (List.forall_mem_append.mp hs).2)
        rw [tokensTake_front hslash hs.1, hback hs.2, alignedBy_of_ne hds]
        simp

end Segments

section Pattern
variable (hn : segments ≠ [])
include hn

/-- Double stars only are read as one, and take any names. -/
theorem tokensOf_doubleStars {p : Pending} (hp : ¬ p.IsInner)
    (hd : ∀ s ∈ segments, s = doubleStar) :
    tokensOf p segments = [.leading] := by
  induction segments generalizing p with
  | nil => exact absurd rfl hn
  | cons segment segments ih =>
    rw [List.forall_mem_cons] at hd
    have hpass : ¬ p.pass.IsInner ∧ p.last = .leading := by
      cases p <;> simp_all [Pending.pass, Pending.IsInner, Pending.last]
    rw [tokensOf, if_pos hd.1]
    split
    · rw [hpass.2]
    · next hs => exact ih hs hpass.1 hd.2

omit hn in
theorem charToken_mem_tokensOf {p : Pending} {c : Char} (hs : segment ∈ segments)
    (hd : segment ≠ doubleStar) (hc : c ∈ segment) : charToken c ∈ tokensOf p segments := by
  induction segments generalizing p with
  | nil => cases hs
  | cons first segments ih =>
    rw [tokensOf]
    split
    · next hf =>
      have hm : segment ∈ segments := List.mem_of_ne_of_mem (ne_of_ne_of_eq hd hf.symm) hs
      rw [if_neg (List.ne_nil_of_mem hm)]
      exact ih hm
    · cases List.mem_cons.mp hs with
      | inl h =>
        subst h
        simp only [List.mem_append]
        exact Or.inr (Or.inl (List.mem_map_of_mem hc))
      | inr h =>
        simp only [List.mem_append]
        exact Or.inr (Or.inr (ih h))

/-- The tokens of a pattern match a path if and only if its names can be aligned with the
segments. -/
theorem matches_iff_alignedBy (hseg : ∀ s ∈ segments, s ≠ [] ∧ '/' ∉ s) (hs : ∀ n ∈ names, '/' ∉ n)
    (hne : names ≠ []) :
    (patternExpression (tokensOf .start segments).reverse).matches (Text.join ['/'] names) = true ↔
      AlignedBy Fits segments names := by
  by_cases hd : ∀ s ∈ segments, s = doubleStar
  · have hstart : ¬ Pending.start.IsInner := by simp [Pending.IsInner]
    rw [tokensOf_doubleStars hn hstart hd, alignedBy_doubleStars fits_doubleStar hn hd,
      Expression.matches, Expression.accepts_iff]
    exact iff_of_true (takes_anyByte _) hne
  · obtain ⟨segment, hm, hd⟩ : ∃ s ∈ segments, s ≠ doubleStar := by simpa using hd
    obtain ⟨c, t, ht⟩ := List.exists_cons_of_ne_nil (hseg segment hm).1
    have hc : charToken c ∈ tokensOf .start segments :=
      charToken_mem_tokensOf hm hd (ht ▸ List.mem_cons_self)
    have hlone : (tokensOf .start segments).reverse ≠ [.leading] := by
      intro h
      rw [← List.mem_reverse, h, List.mem_singleton, charToken] at hc
      split at hc
      · cases hc
      · split at hc <;> cases hc
    rw [patternExpression, matches_expressionOf]
    · exact (tokensTake_tokensOf (fun s hm => (hseg s hm).2) hs hn (Or.inl hne)
        (Or.inr ⟨segment, hm, hd⟩)).trans (Pending.stay (by simp [Pending.Swallows]))
    · exact hlone

/-- Where all characters are single bytes, these are matched. -/
theorem matches_patternExpression (hseg : ∀ s ∈ segments, s ≠ [] ∧ '/' ∉ s ∧ Ascii s)
    (hs : Spelled names) (hne : names ≠ []) :
    (patternExpression (tokensOf .start segments).reverse).matches (Text.join ['/'] names) = true ↔
      Aligned segments names := by
  rw [matches_iff_alignedBy hn (fun s hm => ⟨(hseg s hm).1, (hseg s hm).2.1⟩)
    (fun n hm => (hs n hm).2.1) hne]
  exact alignedBy_fits_iff (fun s hm => (hseg s hm).2.2) fun n hm => (hs n hm).2.2

end Pattern

end SourceMarks.Glob
