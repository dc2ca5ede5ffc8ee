import SourceMarks.Proofs.Glob.Lead

/-!
Where a pattern is cut. Main statement: in front of its first segment with wildcards, at one place
only, and nothing but separators is lost. Joining the parts again gives the pattern, unless several
separators stand there.
-/
namespace SourceMarks.Glob
variable {pattern lead rest : Text} {slashes : Nat}

/-- A pattern cut in front of its first segment with wildcards: the lead, a number of separators,
and the rest. -/
structure IsCut (pattern lead : Text) (slashes : Nat) (rest : Text) : Prop where
  text : pattern = lead ++ List.replicate slashes '/' ++ rest
  plain : hasMagic lead = false
  magic : ∃ segment segments, rest.split '/' = segment :: segments ∧ hasMagic segment = true
  /-- No lead but the root ends with a separator. -/
  ending : lead.getLast? = some '/' → lead = ['/']
  /-- Only the empty lead and the root need no separator behind them. -/
  apart : slashes = 0 → lead = [] ∨ lead = ['/']
  /-- Without a lead there is no separator, since the first one would be the root. -/
  bare : lead = [] → slashes = 0

theorem exists_replicate {t : Text} (h : ∀ c ∈ t, c = '/') : ∃ n, t = List.replicate n '/' :=
  ⟨t.length, List.eq_replicate_iff.mpr ⟨rfl, h⟩⟩

/-- Every pattern with wildcards can be cut. -/
theorem exists_isCut (hm : hasMagic pattern = true) :
    ∃ lead slashes rest, IsCut pattern lead slashes rest := by
  obtain ⟨plain, s, segments, hparts, hplain, hs⟩ := exists_wildcard_segment hm
  have hcut : pattern = closed plain ++ Text.join ['/'] (s :: segments) :=
    eq_closed_append hparts (List.cons_ne_nil s segments)
  have hmagic : ∃ segment rest, (Text.join ['/'] (s :: segments)).split '/' = segment :: rest ∧
      hasMagic segment = true := by
    refine ⟨s, segments, Text.split_join (fun t ht => ?_) (List.cons_ne_nil s segments), hs⟩
    exact Text.not_mem_of_mem_split (hparts ▸ List.mem_append_right plain ht)
  by_cases hn : plain = []
  · subst hn
    exact ⟨[], 0, Text.join ['/'] (s :: segments), hcut, rfl, hmagic, by simp, by simp, by simp⟩
  obtain ⟨slashes, hslashes, hclosed⟩ := closed_eq_dropEnd hn
  obtain ⟨n, rfl⟩ := exists_replicate hslashes
  have hnone : hasMagic (closed plain) = false := by
    rw [hasMagic_closed, List.any_eq_false]
    simpa using hplain
  have hlast := Text.getLast?_dropEnd (· = '/') (closed plain)
  generalize Text.dropEnd (· = '/') (closed plain) = trimmed at hclosed hlast
  rw [hclosed] at hcut hnone
  by_cases ht : trimmed = []
  · -- All folders in front are empty: the first separator is the root.
    subst ht
    exact ⟨['/'], n, Text.join ['/'] (s :: segments), hcut, rfl, hmagic, by simp, by simp, by simp⟩
  · rw [hasMagic_append, Bool.or_eq_false_iff] at hnone
    refine ⟨trimmed, n + 1, Text.join ['/'] (s :: segments), hcut, hnone.1, hmagic, ?_,
      by simp, by simp [ht]⟩
    intro h
    exact absurd (hlast '/' h) (by simp)

namespace IsCut
variable (h : IsCut pattern lead slashes rest)
include h

/-- There is nothing in front of the rest, or a separator comes last. -/
theorem front_cases : lead ++ List.replicate slashes '/' = [] ∨
    ∃ front, lead ++ List.replicate slashes '/' = front ++ ['/'] := by
  cases slashes with
  | zero =>
    cases h.apart rfl with
    | inl hl => exact Or.inl (by simp [hl])
    | inr hl => exact Or.inr ⟨[], by simp [hl]⟩
  | succ n => exact Or.inr ⟨lead ++ List.replicate n '/', by simp [List.replicate_succ']⟩

theorem hasMagic_front : hasMagic (lead ++ List.replicate slashes '/') = false := by
  rw [hasMagic_append, h.plain]
  simp [hasMagic, isMagic]

/-- The segments in front of the rest have no wildcards. -/
theorem exists_split_eq : ∃ plain, pattern.split '/' = plain ++ rest.split '/' ∧
    closed plain = lead ++ List.replicate slashes '/' ∧ ∀ s ∈ plain, hasMagic s = false := by
  cases h.front_cases with
  | inl hn =>
    refine ⟨[], ?_, hn.symm, by simp⟩
    rw [h.text, hn]
    rfl
  | inr hf =>
    obtain ⟨front, hf⟩ := hf
    have hclosed : closed (front.split '/') = front ++ ['/'] := by
      rw [closed_eq (Text.split_ne_nil '/' front), Text.join_split]
    refine ⟨front.split '/', ?_, by rw [hclosed, hf], ?_⟩
    · rw [h.text, hf, List.append_assoc]
      exact Text.split_append '/' front rest
    · have hnone : (front.split '/').any hasMagic = false := by
        rw [← hasMagic_closed, hclosed, ← hf, h.hasMagic_front]
      simpa using hnone

/-- The rest begins with a segment with wildcards, and not with a separator. -/
theorem head?_rest_ne : rest.head? ≠ some '/' := by
  obtain ⟨segment, segments, hrest, hs⟩ := h.magic
  intro hhead
  obtain ⟨t, rfl⟩ := List.head?_eq_some_iff.mp hhead
  rw [Text.split, if_pos rfl] at hrest
  cases hrest
  cases hs

/-- A pattern is cut at one place only. -/
theorem eq_splitStatic : splitStatic pattern = (lead, rest) := by
  obtain ⟨plain, hparts, hclosed, hplain⟩ := h.exists_split_eq
  obtain ⟨segment, segments, hrest, hs⟩ := h.magic
  rw [hrest] at hparts
  rw [splitStatic_eq hparts hplain hs, hclosed, ← hrest, Text.join_split,
    Text.dropEnd_append_of_forall (by simp)]
  by_cases hl : lead.getLast? = some '/'
  · -- The root is trimmed away with the other separators, and put back in the end.
    obtain rfl := h.ending hl
    have hhead : pattern.head? = some '/' := by
      rw [h.text]
      rfl
    rw [hhead]
    rfl
  · rw [dropEnd_slash hl, if_neg]
    have hhead : lead = [] → pattern.head? ≠ some '/' := by
      intro hn
      rw [h.text, h.bare hn, hn]
      exact h.head?_rest_ne
    simpa using hhead

end IsCut

/-- A pattern with wildcards is cut into its lead and the rest. -/
theorem isCut_splitStatic (hm : hasMagic pattern = true) :
    ∃ slashes, IsCut pattern (splitStatic pattern).1 slashes (splitStatic pattern).2 := by
  obtain ⟨lead, slashes, rest, h⟩ := exists_isCut hm
  rw [h.eq_splitStatic]
  exact ⟨slashes, h⟩

namespace IsCut
variable (h : IsCut pattern lead slashes rest)
include h

/-- What stands in front of the rest is the lead with a single separator behind it, and some
others. -/
theorem exists_opened :
    ∃ n, lead ++ List.replicate slashes '/' = Path.opened lead ++ List.replicate n '/' ∧
    (lead = [] → n = 0) := by
  by_cases hl : lead = [] ∨ lead.getLast? = some '/'
  · exact ⟨slashes, by rw [Path.opened, slash_char, if_pos hl], h.bare⟩
  · rw [not_or] at hl
    cases slashes with
    | zero =>
      cases h.apart rfl with
      | inl hn => exact absurd hn hl.1
      | inr hr => exact absurd (by rw [hr]; rfl) hl.2
    | succ n =>
      refine ⟨n, ?_, fun hn => absurd hn hl.1⟩
      rw [Path.opened, slash_char, if_neg (not_or.mpr hl), List.append_assoc]
      rfl

theorem not_suffix_opened : ¬ ['/', '/'] <:+ Path.opened lead := by
  intro hs
  by_cases hl : lead = [] ∨ lead.getLast? = some '/'
  · rw [Path.opened, slash_char, if_pos hl] at hs
    cases hl with
    | inl hn =>
      rw [hn] at hs
      exact absurd hs.length_le (by simp)
    | inr hr =>
      rw [h.ending hr] at hs
      exact absurd hs.length_le (by simp)
  · rw [Path.opened, slash_char, if_neg hl] at hs
    have hlast : ['/'] <:+ lead := List.suffix_append_self_iff.mp hs
    obtain ⟨front, hf⟩ := hlast
    exact hl (Or.inr (by rw [← hf, List.getLast?_concat]))

/-- Joining the lead with the rest gives the pattern back, unless two separators stand in front of
the rest. -/
theorem joinLead_eq_iff : joinLead lead rest = pattern ↔ ¬ '/' :: '/' :: rest <:+ pattern := by
  obtain ⟨n, hfront, hn⟩ := h.exists_opened
  have hsuffix : '/' :: '/' :: rest <:+ pattern ↔
      ['/', '/'] <:+ Path.opened lead ++ List.replicate n '/' := by
    rw [h.text, hfront]
    change ['/', '/'] ++ rest <:+ _ ↔ _
    exact List.suffix_append_self_iff
  rw [hsuffix, joinLead_eq, h.text, hfront, List.append_cancel_right_eq]
  cases n with
  | zero => simpa using h.not_suffix_opened
  | succ n =>
    have hne : lead ≠ [] := fun hl => absurd (hn hl) (Nat.succ_ne_zero n)
    obtain ⟨front, hf⟩ := List.getLast?_eq_some_iff.mp (Path.getLast?_opened hne)
    have hrun : '/' :: List.replicate (n + 1) '/' = List.replicate n '/' ++ ['/', '/'] := by
      rw [← List.replicate_succ, List.replicate_succ', List.replicate_succ', List.append_assoc]
      rfl
    have hs : ['/', '/'] <:+ Path.opened lead ++ List.replicate (n + 1) '/' := by
      refine ⟨front ++ List.replicate n '/', ?_⟩
      rw [hf, List.append_assoc, List.append_assoc, ← hrun]
      rfl
    simp [hs]

end IsCut

/-- Between the lead of a pattern and the rest there are separators only. -/
theorem splitStatic_parts (hm : hasMagic pattern = true) :
    ∃ slashes, pattern =
      (Path.opened (splitStatic pattern).1 ++ slashes) ++ (splitStatic pattern).2 ∧
      (∀ c ∈ slashes, c = '/') ∧
      ∀ c ∈ Path.opened (splitStatic pattern).1 ++ slashes, isMagic c = false := by
  obtain ⟨slashes, h⟩ := isCut_splitStatic hm
  obtain ⟨n, hfront, -⟩ := h.exists_opened
  have hplain := h.hasMagic_front
  rw [hfront] at hplain
  refine ⟨List.replicate n '/', ?_, by simp, fun c hc => ?_⟩
  · rw [← hfront]
    exact h.text
  · simpa using List.any_eq_false.mp hplain c hc

/-- A pattern with wildcards is cut in front of its first segment with wildcards, and could be cut
nowhere else. Joining the two parts gives the pattern back exactly if the rest does not follow two
separators in a row. -/
theorem splitStatic_exact (hm : hasMagic pattern = true) :
    ∃ lead slashes rest, splitStatic pattern = (lead, rest) ∧ IsCut pattern lead slashes rest ∧
      (∀ lead' slashes' rest', IsCut pattern lead' slashes' rest' → lead' = lead ∧ rest' = rest) ∧
      (joinLead lead rest = pattern ↔ ¬ '/' :: '/' :: rest <:+ pattern) := by
  obtain ⟨lead, slashes, rest, h⟩ := exists_isCut hm
  refine ⟨lead, slashes, rest, h.eq_splitStatic, h, fun lead' slashes' rest' h' => ?_,
    h.joinLead_eq_iff⟩
  exact Prod.mk.inj (h'.eq_splitStatic.symm.trans h.eq_splitStatic)

/-- The join puts one separator behind the lead, where this pattern has two. -/
theorem splitStatic_exact_doubled :
    let pattern : Text := ['/', 'a', '/', '/', '*', '/', 'b']
    hasMagic pattern = true ∧ splitStatic pattern = (['/', 'a'], ['*', '/', 'b']) ∧
      IsCut pattern ['/', 'a'] 2 ['*', '/', 'b'] ∧
        joinLead ['/', 'a'] ['*', '/', 'b'] ≠ pattern := by
  intro pattern
  have hm : hasMagic pattern = true := by decide
  have hsplit : splitStatic pattern = (['/', 'a'], ['*', '/', 'b']) := by decide
  obtain ⟨lead, slashes, rest, h, hcut, -, hjoin⟩ := splitStatic_exact hm
  obtain ⟨rfl, rfl⟩ := Prod.mk.inj (hsplit.symm.trans h)
  have hslashes : slashes = 2 := by
    have hlength := congrArg List.length hcut.text
    simpa [pattern] using hlength.symm
  subst hslashes
  exact ⟨hm, hsplit, hcut, fun he => hjoin.mp he (by decide)⟩

end SourceMarks.Glob
