import Mathlib.Data.List.Induction
import SourceMarks.Proofs.Glob.Alignment

/-!
How a pattern without sets, alternatives and escapes is read: segment by segment, into the tokens
that its names can be aligned with.
-/
namespace SourceMarks.Glob
variable {d : Draft} {prev : Option Char} {c : Char} {segment rest pattern t : Text}
  {segments names : List Text} {tokens before : List Token}

/-- The characters that take more than stars and question marks to read. -/
def reserved : List Char := ['[', ']', '\x7b', '\x7d', '\\', '!', ',']

/-- The characters that are about sets, alternatives and escapes wherever they stand. -/
def structural : List Char := ['[', '\x7b', '\x7d', '\\']

theorem not_mem_structural (h : c ∉ reserved) : c ∉ structural := by
  simp only [reserved, structural, List.mem_cons, List.not_mem_nil, or_false, not_or] at h ⊢
  exact ⟨h.1, h.2.2.1, h.2.2.2.1, h.2.2.2.2.1⟩

/-- What a character does to a draft by itself. -/
def Draft.take? (d : Draft) (c : Char) : Option Draft :=
  if c = '*' then some (d.push .star)
  else if c = '?' then some (d.push .any)
  else if c = '\x7b' then some d.enter
  else if c = '\x7d' then d.leave?
  else if c = ',' then some d.turn
  else some (d.push (.literal c))

section Step
variable (d prev rest)

/-- A character is read by itself, unless it begins a set, an escape or a double star. -/
theorem read_one (hset : c ≠ '[') (hesc : c ≠ '\\') (hr : c = '*' → ∀ x ∈ rest.head?, x ≠ '*') :
    read d prev (c :: rest) =
      match d.take? c with
      | none => .error .unopenedGroup
      | some next => read next (some c) rest := by
  by_cases hstar : c = '*'
  · subst hstar
    rw [read]
    · rfl
    · rintro more rfl
      exact hr rfl '*' rfl rfl
  by_cases hany : c = '?'
  · subst hany
    rw [read]
    rfl
  by_cases henter : c = '\x7b'
  · subst henter
    rw [read]
    rfl
  by_cases hleave : c = '\x7d'
  · subst hleave
    rw [read]
    change _ = match d.leave? with | none => _ | some next => _
    cases d.leave? <;> rfl
  by_cases hcomma : c = ','
  · subst hcomma
    rw [read]
    rfl
  · rw [Draft.take?, if_neg hstar, if_neg hany, if_neg henter, if_neg hleave,
      if_neg hcomma, read] <;>
      grind

/-- Two stars are single ones in the middle of a segment. -/
theorem read_stars_inner (hb : d.branch ≠ []) (ho : d.openings = []) (hp : prev ≠ some '/') :
    read d prev ('*' :: '*' :: rest) = read d.stars (some '*') rest := by
  have hat : d.atSegment prev = false := by simp [Draft.atSegment, ho, hp]
  cases rest with
  | nil => simp [read, hb, hat]
  | cons x more =>
    by_cases hx : x = '/'
    · subst hx
      simp [read, hb, hat]
    · rw [read] <;> simp [hb, hat, hx]

/-- Two stars are single ones if the segment goes on. -/
theorem read_stars_open (hc : c ≠ '/') (ho : d.openings = []) :
    read d prev ('*' :: '*' :: c :: rest) = read d.stars (some '*') (c :: rest) := by
  rw [read] <;> simp [ho, hc]

end Step

/-- The draft with these tokens, in the order of the pattern. -/
def draftOf (tokens : List Token) : Draft := ⟨tokens.reverse, []⟩

theorem push_draftOf (tokens : List Token) (t : Token) :
    (draftOf tokens).push t = draftOf (tokens ++ [t]) := by
  simp [draftOf, Draft.push]

theorem stars_draftOf (tokens : List Token) :
    (draftOf tokens).stars = draftOf (tokens ++ [.star, .star]) := by
  simp [draftOf, Draft.stars, Draft.push]

/-- Outside of braces a character is its token. -/
theorem take?_draftOf (hc : c ∉ structural) :
    (draftOf tokens).take? c = some (draftOf (tokens ++ [charToken c])) := by
  simp only [structural, List.mem_cons, List.not_mem_nil, or_false, not_or] at hc
  rw [← push_draftOf, Draft.take?, if_neg hc.2.1, if_neg hc.2.2.1, charToken]
  split
  · rfl
  split
  · rfl
  split
  · next hcomma => rw [hcomma]; rfl
  · rfl

/-- A character that does not begin a double star is read into its token. -/
theorem read_char (hc : c ∉ structural) (hr : c = '*' → ∀ x ∈ rest.head?, x ≠ '*') :
    read (draftOf tokens) prev (c :: rest) =
      read (draftOf (tokens ++ [charToken c])) (some c) rest := by
  have hother : c ≠ '[' ∧ c ≠ '\\' := by
    constructor <;> (rintro rfl; exact hc (by decide))
  rw [read_one _ _ _ hother.1 hother.2 hr, take?_draftOf hc]

/-- Where a segment ends, the character before does not count. -/
theorem read_end (prev : Option Char) (hr : ∀ x ∈ rest.head?, x = '/') :
    read (draftOf tokens) prev rest = read (draftOf tokens) none rest := by
  cases rest with
  | nil => rw [read, read]
  | cons x rest =>
    obtain rfl : x = '/' := hr x rfl
    rw [read_char (by decide) (by simp), read_char (by decide) (by simp)]

/-- The characters of a segment are read one by one, unless it is a double star. -/
theorem read_segment (hs : ∀ x ∈ segment, x ≠ '/' ∧ x ∉ structural) (hr : ∀ x ∈ rest.head?, x = '/')
    (h : segment ≠ doubleStar ∨ tokens ≠ [] ∧ prev ≠ some '/') :
    read (draftOf tokens) prev (segment ++ rest) =
      read (draftOf (tokens ++ segment.map charToken)) none rest := by
  induction segment using List.twoStepInduction generalizing tokens prev with
  | nil => simpa using read_end prev hr
  | singleton c =>
    obtain ⟨⟨-, hc⟩, -⟩ := List.forall_mem_cons.mp hs
    have hnext : c = '*' → ∀ x ∈ rest.head?, x ≠ '*' := by
      intro _ x hx he
      exact absurd ((hr x hx).symm.trans he) (by decide)
    rw [List.singleton_append, read_char hc hnext, read_end _ hr, List.map_singleton]
  | cons_cons c x more ihs ih =>
    simp only [List.forall_mem_cons] at hs
    obtain ⟨⟨hcs, hc⟩, ⟨hxs, hx⟩, hmore⟩ := hs
    by_cases hd : c = '*' ∧ x = '*'
    · obtain ⟨rfl, rfl⟩ := hd
      have hstars : read (draftOf tokens) prev ('*' :: '*' :: (more ++ rest)) =
          read (draftOf tokens).stars (some '*') (more ++ rest) := by
        cases more with
        | nil =>
          obtain ⟨ht, hp⟩ := h.resolve_left (fun hne => hne rfl)
          exact read_stars_inner _ _ _ (by simpa [draftOf] using ht) rfl hp
        | cons y more => exact read_stars_open _ _ _ (hmore y List.mem_cons_self).1 rfl
      rw [List.cons_append, List.cons_append, hstars, stars_draftOf,
        ihs hmore (Or.inr (by simp))]
      simp [charToken]
    · have hnext : c = '*' → ∀ y ∈ (x :: more ++ rest).head?, y ≠ '*' := by
        intro hstar y hy he
        exact hd ⟨hstar, (Option.some_inj.mp hy).trans he⟩
      rw [List.cons_append, read_char hc hnext,
        ih x (List.forall_mem_cons.mpr ⟨⟨hxs, hx⟩, hmore⟩) (Or.inr (by simp [hcs]))]
      simp

/-- The character before a segment. -/
def Pending.charBefore : Pending → Option Char
  | start => none
  | slash | leading | between => some '/'

section Pattern
variable {p : Pending} (hb : p = .start ∨ p = .leading → before = [])
include hb

theorem read_doubleStar_last :
    read (draftOf (before ++ p.lead)) p.charBefore doubleStar =
      .ok (draftOf (before ++ [p.last])) := by
  cases p <;> simp_all [Pending.lead, Pending.charBefore, Pending.last, doubleStar, draftOf, read,
    Draft.push, Draft.join, Draft.atSegment]

theorem read_doubleStar_next :
    read (draftOf (before ++ p.lead)) p.charBefore (doubleStar ++ '/' :: rest) =
      read (draftOf (before ++ p.pass.lead)) p.pass.charBefore rest := by
  cases p <;> simp_all [Pending.lead, Pending.charBefore, Pending.pass, doubleStar, draftOf, read,
    Draft.push, Draft.join, Draft.atSegment]

/-- Segments are read into their tokens. -/
theorem read_segments (hs : ∀ s ∈ segments, ∀ x ∈ s, x ≠ '/' ∧ x ∉ structural)
    (hn : segments ≠ []) :
    read (draftOf (before ++ p.lead)) p.charBefore (Text.join ['/'] segments) =
      .ok (draftOf (before ++ tokensOf p segments)) := by
  induction segments generalizing p before with
  | nil => exact absurd rfl hn
  | cons segment segments ih =>
    rw [List.forall_mem_cons] at hs
    rw [tokensOf]
    by_cases hd : segment = doubleStar
    · subst hd
      rw [if_pos rfl]
      by_cases hnil : segments = []
      · subst hnil
        rw [if_pos rfl]
        exact read_doubleStar_last hb
      · have hpass : p.pass = .start ∨ p.pass = .leading → before = [] := by
          intro h
          refine hb ?_
          cases p <;> simp_all [Pending.pass]
        rw [if_neg hnil, Text.join_next '/' _ hnil, read_doubleStar_next hb, ih hpass hs.2 hnil]
    · rw [if_neg hd]
      by_cases hnil : segments = []
      · subst hnil
        have h : read (draftOf (before ++ p.lead)) p.charBefore (segment ++ []) =
            .ok (draftOf (before ++ p.lead ++ segment.map charToken)) := by
          rw [read_segment hs.1 (by simp) (Or.inl hd), read]
          rfl
        simpa [Text.join, tokensOf] using h
      · rw [Text.join_next '/' _ hnil, read_segment hs.1 (by simp) (Or.inl hd),
          read_char (by decide) (by simp)]
        have hnext : ∀ front, read (draftOf (front ++ [charToken '/'])) (some '/')
            (Text.join ['/'] segments) = .ok (draftOf (front ++ tokensOf .slash segments)) :=
          fun front => @ih front .slash (by simp) hs.2 hnil
        simpa using hnext (before ++ p.lead ++ segment.map charToken)

end Pattern

/-- A pattern without sets, alternatives and escapes compiles to the tokens of its segments. -/
theorem compile_segments (hs : ∀ s ∈ pattern.split '/', ∀ x ∈ s, x ∉ structural) :
    compile pattern = .ok (patternExpression (tokensOf .start (pattern.split '/')).reverse) := by
  have hsegments : ∀ s ∈ pattern.split '/', ∀ x ∈ s, x ≠ '/' ∧ x ∉ structural :=
    fun s hm x hx => ⟨fun he => Text.not_mem_of_mem_split hm (he ▸ hx), hs s hm x hx⟩
  have h : read (draftOf ([] ++ Pending.start.lead)) Pending.start.charBefore
      (Text.join ['/'] (pattern.split '/')) =
        .ok (draftOf ([] ++ tokensOf .start (pattern.split '/'))) :=
    read_segments (fun _ => rfl) hsegments (Text.split_ne_nil '/' pattern)
  rw [Text.join_split] at h
  have hread : read ⟨[], []⟩ none pattern = .ok (draftOf (tokensOf .start (pattern.split '/'))) := h
  rw [compile, hread]
  rfl

section Unopened

/-- A double star is read with the separator behind it or without, and leaves the open braces
alone. -/
theorem read_stars (d : Draft) (prev : Option Char) (rest : Text) :
    ∃ next prev' more, read d prev ('*' :: '*' :: rest) = read next prev' more ∧
      next.openings = d.openings ∧ (rest = more ∨ rest = '/' :: more) := by
  have hjoin : ∀ t, (d.join t).openings = d.openings := by
    intro t
    rw [Draft.join]
    split <;> rfl
  cases rest with
  | nil =>
    rw [read]
    split
    · exact ⟨_, _, [], rfl, rfl, Or.inl rfl⟩
    split
    · exact ⟨_, _, [], rfl, rfl, Or.inl rfl⟩
    · exact ⟨_, _, [], rfl, hjoin _, Or.inl rfl⟩
  | cons c more =>
    by_cases hc : c = '/'
    · subst hc
      rw [read]
      split
      · exact ⟨_, _, more, rfl, rfl, Or.inr rfl⟩
      split
      · exact ⟨_, _, '/' :: more, rfl, rfl, Or.inl rfl⟩
      · exact ⟨_, _, more, rfl, hjoin _, Or.inr rfl⟩
    · rw [read]
      · split
        · exact ⟨_, _, c :: more, rfl, rfl, Or.inl rfl⟩
        split
        · exact ⟨_, _, c :: more, rfl, rfl, Or.inl rfl⟩
        split
        · exact ⟨_, _, c :: more, rfl, hjoin _, Or.inl rfl⟩
        · exact ⟨_, _, c :: more, rfl, rfl, Or.inl rfl⟩
      · exact hc

/-- A closing brace that no brace was opened for cannot be read. -/
theorem read_ne_ok (hs : ∀ c ∈ t, c ≠ '[' ∧ c ≠ '\x7b' ∧ c ≠ '\\') (hm : '\x7d' ∈ t) :
    read (draftOf tokens) prev t ≠ .ok d := by
  induction hl : t.length using Nat.strongRecOn generalizing tokens prev t with
  | ind n ih =>
    cases t with
    | nil => cases hm
    | cons c rest =>
      obtain ⟨hc, hrest⟩ := List.forall_mem_cons.mp hs
      by_cases hd : c = '*' ∧ ∃ more, rest = '*' :: more
      · obtain ⟨rfl, rest, rfl⟩ := hd
        obtain ⟨next, prev', more, hread, hopen, hmore⟩ := read_stars (draftOf tokens) prev rest
        have hnext : next = draftOf next.branch.reverse := by
          cases next
          cases hopen
          simp [draftOf]
        have hin : ∀ x ∈ more, x ∈ rest := by
          rcases hmore with rfl | rfl <;> simp +contextual
        have hbrace : '\x7d' ∈ more := by
          rcases hmore with rfl | rfl <;> simpa using hm
        have hlength : more.length ≤ rest.length := by
          rcases hmore with rfl | rfl <;> simp
        rw [hread, hnext]
        refine ih more.length ?_
          (fun x hx => hrest x (List.mem_cons_of_mem '*' (hin x hx))) hbrace rfl
        rw [List.length_cons, List.length_cons] at hl
        omega
      · have hr : c = '*' → ∀ x ∈ rest.head?, x ≠ '*' := by
          rintro rfl x hx rfl
          exact hd ⟨rfl, rest.tail, List.eq_cons_of_mem_head? hx⟩
        by_cases hbrace : c = '\x7d'
        · subst hbrace
          rw [read_one _ _ _ (by decide) (by decide) hr]
          exact nofun
        · rw [read_char (by simp [structural, hc, hbrace]) hr]
          refine ih rest.length ?_ hrest (List.mem_of_ne_of_mem (Ne.symm hbrace) hm) rfl
          rw [List.length_cons] at hl
          omega

/-- If a pattern compiles in which nothing opens a set, alternatives or an escape, then it consists
of segments only. -/
theorem eq_of_compile {e : Expression} (hs : ∀ c ∈ pattern, c ≠ '[' ∧ c ≠ '\x7b' ∧ c ≠ '\\')
    (h : compile pattern = .ok e) :
    e = patternExpression (tokensOf .start (pattern.split '/')).reverse := by
  have hclose : '\x7d' ∉ pattern := by
    intro hm
    rw [compile] at h
    split at h
    · next d hd =>
      have hread : read (draftOf []) none pattern = .ok d := hd
      exact read_ne_ok hs hm hread
    · cases h
  have hsegments : ∀ s ∈ pattern.split '/', ∀ x ∈ s, x ∉ structural := by
    intro s hm x hx
    have hin := Text.subset_of_mem_split hm hx
    have hne : x ≠ '\x7d' := fun he => hclose (he ▸ hin)
    simp [structural, hs x hin, hne]
  rw [compile_segments hsegments] at h
  cases h
  rfl

end Unopened

end SourceMarks.Glob
