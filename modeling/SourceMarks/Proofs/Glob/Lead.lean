import SourceMarks.Proofs.Glob.Segments
import SourceMarks.Proofs.Path.Parts
import SourceMarks.Proofs.Text.Cut
import SourceMarks.Proofs.Text.Split

/-!
The plain folders that lead a pattern, which is cut in front of its first segment with wildcards.
-/
namespace SourceMarks.Glob
variable {pattern t : Text} {segments plain rest : List Text} {s : Text}

theorem hasMagic_append (a b : Text) : hasMagic (a ++ b) = (hasMagic a || hasMagic b) :=
  List.any_append

/-- Wildcards stand in the segments, since a separator is none. -/
theorem hasMagic_join (segments : List Text) :
    hasMagic (Text.join ['/'] segments) = segments.any hasMagic := by
  induction segments with
  | nil => rfl
  | cons s segments ih =>
    by_cases hn : segments = []
    · subst hn
      simp [Text.join]
    · have hslash : ∀ t, hasMagic ('/' :: t) = hasMagic t := fun t => rfl
      rw [Text.join_next '/' s hn, hasMagic_append, hslash, ih, List.any_cons]

theorem hasDoubleStar_of_isInfix (h : doubleStar <:+: t) : hasDoubleStar t = true := by
  induction t with
  | nil => exact absurd (List.infix_nil.mp h) (by decide)
  | cons c t ih =>
    cases List.infix_cons_iff.mp h with
    | inl hp =>
      obtain ⟨r, hr⟩ := hp
      cases hr
      rfl
    | inr hi =>
      rw [hasDoubleStar.eq_def]
      split
      · rfl
      · next hc =>
        cases hc
        exact ih hi
      · next hc => cases hc

theorem infix_join (h : s ∈ segments) : s <:+: Text.join ['/'] segments := by
  induction segments with
  | nil => cases h
  | cons s' segments ih =>
    by_cases hn : segments = []
    · subst hn
      rw [List.mem_singleton.mp h]
      exact List.infix_rfl
    · rw [Text.join_next '/' s' hn]
      cases List.mem_cons.mp h with
      | inl h =>
        rw [h]
        exact (List.prefix_append s' _).isInfix
      | inr h =>
        exact (ih h).trans ((List.suffix_cons '/' _).trans (List.suffix_append s' _)).isInfix

/-- A pattern without two stars in a row has no segment of them. -/
theorem doubleStar_not_mem (h : hasDoubleStar (Text.join ['/'] segments) = false) :
    doubleStar ∉ segments := by
  intro hm
  rw [hasDoubleStar_of_isInfix (infix_join hm)] at h
  cases h

/-- The text of segments with a separator behind each of them. -/
def closed (segments : List Text) : Text := segments.flatMap fun s => s ++ ['/']

theorem closed_append_join (hr : rest ≠ []) :
    Text.join ['/'] (plain ++ rest) = closed plain ++ Text.join ['/'] rest := by
  induction plain with
  | nil => rfl
  | cons s plain ih =>
    rw [List.cons_append, Text.join_next '/' s (by simp [hr]), ih, closed, closed,
      List.flatMap_cons]
    simp

theorem eq_closed_append (hparts : pattern.split '/' = plain ++ rest) (hr : rest ≠ []) :
    pattern = closed plain ++ Text.join ['/'] rest := by
  rw [← closed_append_join hr, ← hparts, Text.join_split]

theorem closed_eq (hn : segments ≠ []) : closed segments = Text.join ['/'] segments ++ ['/'] := by
  have h : Text.join ['/'] (segments ++ [[]]) = closed segments ++ Text.join ['/'] [[]] :=
    closed_append_join (by simp)
  rw [Text.join_append _ hn (by simp)] at h
  simpa [Text.join] using h.symm

theorem hasMagic_closed (segments : List Text) :
    hasMagic (closed segments) = segments.any hasMagic := by
  induction segments with
  | nil => rfl
  | cons s segments ih =>
    have hcons : closed (s :: segments) = s ++ '/' :: closed segments := by simp [closed]
    rw [hcons, hasMagic_append, List.any_cons, ← ih]
    rfl

/-- A pattern with wildcards has a first segment with wildcards. -/
theorem exists_wildcard_segment (hm : hasMagic pattern = true) :
    ∃ plain segment segments, pattern.split '/' = plain ++ segment :: segments ∧
      (∀ s ∈ plain, hasMagic s = false) ∧ hasMagic segment = true := by
  rw [← Text.join_split '/' pattern, hasMagic_join, List.any_eq_true, ← List.find?_isSome,
    Option.isSome_iff_exists] at hm
  obtain ⟨segment, hfind⟩ := hm
  obtain ⟨hs, plain, segments, hparts, hplain⟩ := List.find?_eq_some_iff_append.mp hfind
  exact ⟨plain, segment, segments, hparts, by simpa using hplain, hs⟩

/-- The pattern is cut in front of the first segment with wildcards. -/
theorem splitStatic_eq (hparts : pattern.split '/' = plain ++ s :: segments)
    (hplain : ∀ s ∈ plain, hasMagic s = false) (hs : hasMagic s = true) :
    splitStatic pattern =
      (if (Text.dropEnd (· = '/') (closed plain)).isEmpty && pattern.head? = some '/' then ['/']
        else Text.dropEnd (· = '/') (closed plain), Text.join ['/'] (s :: segments)) := by
  have hcut : pattern = closed plain ++ Text.join ['/'] (s :: segments) :=
    eq_closed_append hparts (List.cons_ne_nil s segments)
  have hfront : (pattern.split '/').takeWhile (!hasMagic ·) = plain := by
    rw [hparts, List.takeWhile_append_of_pos (by simpa using hplain)]
    simp [hs]
  have htake : pattern.take (closed plain).length = closed plain := by rw [hcut, List.take_left]
  have hdrop : pattern.drop (closed plain).length = Text.join ['/'] (s :: segments) := by
    rw [hcut, List.drop_left]
  rw [splitStatic]
  simp only [hfront]
  change (if (Text.dropEnd _ (pattern.take (closed plain).length)).isEmpty && _ then
    (_, pattern.drop (closed plain).length) else
    (Text.dropEnd _ (pattern.take (closed plain).length), pattern.drop (closed plain).length)) = _
  rw [htake, hdrop]
  split <;> rfl

/-- Plain folders are trimmed by the separator behind the last one at least. -/
theorem closed_eq_dropEnd (hn : plain ≠ []) : ∃ slashes, (∀ c ∈ slashes, c = '/') ∧
    closed plain = Text.dropEnd (· = '/') (closed plain) ++ '/' :: slashes := by
  obtain ⟨ending, hend, hslash⟩ := Text.exists_dropEnd (· = '/') (closed plain)
  cases ending with
  | nil =>
    have hlast : '/' ∈ (Text.dropEnd (· = '/') (closed plain)).getLast? := by
      rw [List.append_nil] at hend
      rw [← hend, closed_eq hn, List.getLast?_concat]
      rfl
    exact absurd (Text.getLast?_dropEnd _ _ _ hlast) (by simp)
  | cons c slashes =>
    rw [List.forall_mem_cons] at hslash
    simp only [decide_eq_true_eq] at hslash
    obtain ⟨rfl, hslash⟩ := hslash
    exact ⟨slashes, hslash, hend⟩

theorem dropEnd_slash (h : t.getLast? ≠ some '/') : Text.dropEnd (· = '/') t = t := by
  refine Text.dropEnd_of_getLast? fun c hc => ?_
  simpa using fun e : c = '/' => h (e ▸ hc)

theorem joinLead_eq (lead relative : Text) :
    joinLead lead relative = Path.opened lead ++ relative := by
  by_cases hn : lead = []
  · simp [joinLead, Path.opened, hn]
  · by_cases hl : lead.getLast? = some '/' <;> simp [joinLead, Path.opened, hn, hl]

section Split
variable (hs : ∀ s ∈ segments, s ≠ [] ∧ '/' ∉ s)
include hs

theorem getLast?_join : (Text.join ['/'] segments).getLast? ≠ some '/' := by
  by_cases hn : segments = []
  · subst hn
    simp [Text.join]
  · have hparts : (Path.ofParts segments).parts = segments :=
      Text.split_join (fun s hm => (hs s hm).2) hn
    have hlast := Path.getLast?_parts (Path.ofParts segments)
    rw [hparts] at hlast
    intro h
    exact (hs [] (List.mem_of_getLast? (hlast.mpr (Or.inr h)))).1 rfl

/-- What leads the segments is written without the separator at its end. -/
theorem dropEnd_closed : Text.dropEnd (· = '/') (closed segments) = Text.join ['/'] segments := by
  by_cases hn : segments = []
  · subst hn
    rfl
  · rw [closed_eq hn, Text.dropEnd_concat (by simp)]
    exact dropEnd_slash (getLast?_join hs)

/-- Where no segment is empty, the pattern is cut between two segments. -/
theorem splitStatic_segments (hm : hasMagic (Text.join ['/'] segments) = true) :
    ∃ plain rest, segments = plain ++ rest ∧ (∀ s ∈ plain, hasMagic s = false) ∧ rest ≠ [] ∧
      splitStatic (Text.join ['/'] segments) = (Text.join ['/'] plain, Text.join ['/'] rest) := by
  have hn : segments ≠ [] := by
    rintro rfl
    cases hm
  have hhead : (Text.join ['/'] segments).head? ≠ some '/' := by
    obtain ⟨s, segments, rfl⟩ := List.exists_cons_of_ne_nil hn
    obtain ⟨hne, hslash⟩ := hs s List.mem_cons_self
    obtain ⟨c, s, rfl⟩ := List.exists_cons_of_ne_nil hne
    rw [Text.join_cons]
    intro he
    exact hslash (Option.some_inj.mp he ▸ List.mem_cons_self)
  obtain ⟨plain, segment, rest, hparts, hplain, hsegment⟩ := exists_wildcard_segment hm
  have hsplit := splitStatic_eq hparts hplain hsegment
  rw [Text.split_join (fun s hm => (hs s hm).2) hn] at hparts
  have hlead : Text.dropEnd (· = '/') (closed plain) = Text.join ['/'] plain :=
    dropEnd_closed fun s hmem => hs s (hparts ▸ List.mem_append_left _ hmem)
  refine ⟨plain, segment :: rest, hparts, hplain, List.cons_ne_nil segment rest, ?_⟩
  rw [hsplit, hlead]
  simp [hhead]

end Split

end SourceMarks.Glob
