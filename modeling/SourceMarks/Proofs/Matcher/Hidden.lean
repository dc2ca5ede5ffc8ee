import SourceMarks.Proofs.Glob.Lead
import SourceMarks.Proofs.Glob.Reading
import SourceMarks.Proofs.Matcher.Collection

/-!
Hidden names. Below the lead of a pattern a name that begins with a point is taken by a segment that
begins with one too, unless the name encodes no text. Only where a double star leaves the depth open
one such segment admits hidden names everywhere.
-/
namespace SourceMarks.Matcher
variable {tree : Tree} {root : Path} {pattern rest f : Text}
  {files found segments front : List Text}
  {names : List RawText} {reach : Glob.Reach} {fits : Text → RawText → Prop}

/-- Two stars in a row and a segment for hidden names: no depth is known at which these are looked
for. -/
def AdmitsAnywhere (rest : Text) : Prop :=
  Glob.hasDoubleStar rest = true ∧
    ∃ s ∈ rest.split '/', Glob.isDotted s = true ∧ s ≠ ['.'] ∧ s ≠ ['.', '.']

/-- A segment may take a name: a hidden one only if it begins with a point itself, or if hidden
names are admitted everywhere. -/
def Shows (rest segment : Text) (name : RawText) : Prop :=
  Glob.isHidden name = true → Glob.isDotted segment = true ∨ AdmitsAnywhere rest

/-- At a known depth a hidden name is admitted by the segment that takes it. The segments in front
are as many as the folders above. -/
theorem alignedBy_hidden (hu : reach.unbounded = false) (hr : reach.segments = front ++ segments)
    (hd : Glob.doubleStar ∉ segments) (ha : Glob.AlignedBy fits segments names)
    (hw : Listing.Admitted (reveals reach) (front.length + 1) names) :
    Glob.AlignedBy (fun s n => fits s n ∧ (Glob.isHidden n = true → Glob.isDotted s = true))
      segments names := by
  induction segments generalizing front names with
  | nil => exact ha
  | cons s segments ih =>
    rw [List.mem_cons, not_or] at hd
    rw [Glob.alignedBy_of_ne (Ne.symm hd.1)] at ha ⊢
    obtain ⟨n, back, rfl, hfits, ha⟩ := ha
    obtain ⟨hn, hw⟩ := hw
    have hseg : reach.segments[front.length]? = some s := by simp [hr]
    have hshown : Glob.isHidden n = true → Glob.isDotted s = true := by
      intro hidden
      simpa [reveals, Glob.Reach.admitsHidden, hu, hseg, hidden] using hn
    have hnext : reach.segments = (front ++ [s]) ++ segments := by simpa using hr
    exact ⟨n, back, rfl, ⟨hfits, hshown⟩, ih hnext hd.2 ha (by simpa using hw)⟩

/-- Without a segment for hidden names a walk of any depth meets none. -/
theorem not_hidden_of_admitted {depth : Nat} (hu : Glob.hasDoubleStar rest = true)
    (hs : ¬ AdmitsAnywhere rest) (hw : Listing.Admitted (reveals (Glob.reachOf rest)) depth names) :
    ∀ n ∈ names, Glob.isHidden n = false := by
  have hnone : ∀ d, (Glob.reachOf rest).admitsHidden d = false := by
    intro d
    simp only [Glob.Reach.admitsHidden, Glob.reachOf, hu, if_true, List.any_eq_false]
    intro s hm h
    simp only [Bool.and_eq_true, bne_iff_ne] at h
    exact hs ⟨hu, s, hm, h.1.1, h.1.2, h.2⟩
  induction names generalizing depth with
  | nil => simp
  | cons n names ih =>
    obtain ⟨hn, hw⟩ := hw
    rw [reveals, hnone] at hn
    exact List.forall_mem_cons.mpr ⟨by simpa using hn, ih hw⟩

/-- Names that a walk admits and that fit the segments it was told about are shown by these. -/
theorem alignedBy_shows (hs : ∀ s ∈ segments, '/' ∉ s) (hn : segments ≠ [])
    (hr : rest = Text.join ['/'] segments) (ha : Glob.AlignedBy fits segments names)
    (hw : Listing.Admitted (reveals (Glob.reachOf rest)) 1 names) :
    Glob.AlignedBy (fun s n => fits s n ∧ Shows rest s n) segments names := by
  cases hu : Glob.hasDoubleStar rest with
  | false =>
    have hseg : (Glob.reachOf rest).segments = [] ++ segments := by
      rw [hr]
      exact Text.split_join hs hn
    have hd : Glob.doubleStar ∉ segments := Glob.doubleStar_not_mem (hr ▸ hu)
    refine (alignedBy_hidden hu hseg hd ha hw).imp fun s _ n _ h => ⟨h.1, fun hidden => ?_⟩
    exact Or.inl (h.2 hidden)
  | true =>
    by_cases hany : AdmitsAnywhere rest
    · exact ha.imp fun s _ n _ h => ⟨h, fun _ => Or.inr hany⟩
    · have hnone := not_hidden_of_admitted hu hany hw
      refine ha.imp fun s _ n hm h => ⟨h, fun hidden => ?_⟩
      rw [hnone n hm] at hidden
      cases hidden

/-- What a single pattern resolves to was found by it. -/
theorem exists_found (h : (ofTree tree root).resolve [pattern] = .ok files) (hf : f ∈ files) :
    ∃ found, expand tree root pattern = .ok found ∧ f ∈ found := by
  have hc : Collected (expand tree root) [pattern] files :=
    collected_of_collect (fun _ _ => sorted_expand) h
  obtain ⟨p, hp, found, he, hfound⟩ := hc.exists_found hf
  obtain rfl := List.mem_singleton.mp hp
  exact ⟨found, he, hfound⟩

section Pattern
variable (hs : ∀ s ∈ pattern.split '/', s ≠ [])
  (hc : ∀ c ∈ pattern, c ≠ '[' ∧ c ≠ '\x7b' ∧ c ≠ '\\')
include hs hc

/-- Names below the lead whose path the pattern matches fit the segments of its rest. -/
theorem fits_of_matches {e : Glob.Expression} (hm : Glob.hasMagic pattern = true)
    (he : compile pattern = .ok e) (hn : ∀ n ∈ names, IsName n) (hne : names ≠ [])
    (hmatch : e.matches (candidate (Glob.splitStatic pattern).1 names) = true) :
    ∃ segments, (∀ s ∈ segments, '/' ∉ s) ∧ segments ≠ [] ∧
      (Glob.splitStatic pattern).2 = Text.join ['/'] segments ∧
      Glob.AlignedBy (fun s n => Glob.Fits s (RawText.shown n)) segments names := by
  have hjoin : Text.join ['/'] (pattern.split '/') = pattern := Text.join_split '/' pattern
  have hseg : ∀ s ∈ pattern.split '/', s ≠ [] ∧ '/' ∉ s :=
    fun s hm => ⟨hs s hm, Text.not_mem_of_mem_split hm⟩
  obtain ⟨plain, segments, hsegments, hplain, hrest, hsplit⟩ :=
    Glob.splitStatic_segments hseg (by rwa [hjoin])
  rw [hjoin] at hsplit
  have hslash : ∀ n ∈ plain ++ names.map RawText.shown, '/' ∉ n := by
    refine List.forall_mem_append.mpr ⟨fun s h => ?_, fun n h => (solid_shown hn n h).2⟩
    exact (hseg s (hsegments ▸ List.mem_append_left segments h)).2
  rw [hsplit] at hmatch ⊢
  rw [candidate, Glob.joinLead_eq,
    opened_join (fun s h => hseg s (hsegments ▸ List.mem_append_left segments h))
      (by simpa using hne), Glob.eq_of_compile hc (mapError_eq_ok_iff.mp he),
    Glob.matches_iff_alignedBy (Text.split_ne_nil '/' pattern) hseg hslash (by simp [hne]),
    hsegments] at hmatch
  have hd : Glob.doubleStar ∉ plain := fun h => Glob.ne_doubleStar (hplain _ h) rfl
  rw [Glob.alignedBy_plain_append hd fun s h n => Glob.fits_plain (hplain s h)] at hmatch
  obtain ⟨back, hback, ha⟩ := hmatch
  obtain rfl := List.append_cancel_left hback
  exact ⟨segments, fun s h => (hseg s (hsegments ▸ List.mem_append_right plain h)).2, hrest, rfl,
    Glob.alignedBy_map.mp ha⟩

/-- A found path is shown for an entry below the lead of the pattern whose names can be aligned with
the segments of its rest so that each hidden one is shown by the segment that takes it. -/
theorem resolve_shows (hm : '*' ∈ pattern ∨ '?' ∈ pattern)
    (h : (ofTree tree root).resolve [pattern] = .ok files) (hf : f ∈ files) :
    ∃ inner names, tree.folderAt? (root.join ⟨(Glob.splitStatic pattern).1⟩).raw = some inner ∧
      names ≠ [] ∧ (inner.node? names).isSome ∧
      f = candidate (Glob.splitStatic pattern).1 names ∧
      Glob.AlignedBy
        (fun s n => Glob.Fits s (RawText.shown n) ∧ Shows (Glob.splitStatic pattern).2 s n)
        ((Glob.splitStatic pattern).2.split '/') names := by
  have hmagic : Glob.hasMagic pattern = true := by
    rw [Glob.hasMagic, List.any_eq_true]
    cases hm with
    | inl hm => exact ⟨'*', hm, rfl⟩
    | inr hm => exact ⟨'?', hm, rfl⟩
  obtain ⟨found, hexpand, hfound⟩ := exists_found h hf
  obtain ⟨e, he⟩ : ∃ e, compile pattern = .ok e := by
    obtain ⟨hm', -⟩ | ⟨-, ⟨-, rfl⟩ | ⟨inner, e, -, he, -⟩⟩ := expand_cases hexpand
    · rw [hmagic] at hm'
      cases hm'
    · cases hfound
    · exact ⟨e, he⟩
  obtain ⟨names, hmet, hw, rfl⟩ := (mem_expand hmagic he hexpand).mp hfound
  obtain ⟨inner, hi, hne, hnode⟩ := hmet.stands
  obtain ⟨segments, hslash, hn, hrest, ha⟩ :=
    fits_of_matches hs hc hmagic he hmet.isName hne hmet.fits
  refine ⟨inner, names, hi, hne, hnode, rfl, ?_⟩
  have hshows := alignedBy_shows hslash hn hrest ha (admitted_iff.mp hw).2
  rw [hrest, Text.split_join hslash hn, ← hrest]
  exact hshows

end Pattern

/-- A hidden file in a hidden folder. -/
def veiled : Tree :=
  (Tree.empty.setFolder [Text.bytes ['.', 'a']]).setFile
    [Text.bytes ['.', 'a'], Text.bytes ['.', 'x']] .empty

/-- Two segments that begin with a point show two hidden names. -/
theorem resolve_shows_veiled :
    let pattern : Text := ['.', '*', '/', '.', '?']
    let f : Text := ['.', 'a', '/', '.', 'x']
    (ofTree veiled ⟨['.']⟩).resolve [pattern] = .ok [f] ∧
    (∀ s ∈ pattern.split '/', s ≠ []) ∧ (∀ c ∈ pattern, c ≠ '[' ∧ c ≠ '\x7b' ∧ c ≠ '\\') ∧
    ∃ inner names,
      veiled.folderAt? (Path.join ⟨['.']⟩ ⟨(Glob.splitStatic pattern).1⟩).raw = some inner ∧
      names ≠ [] ∧ (inner.node? names).isSome ∧
      f = candidate (Glob.splitStatic pattern).1 names ∧
      Glob.AlignedBy
        (fun s n => Glob.Fits s (RawText.shown n) ∧ Shows (Glob.splitStatic pattern).2 s n)
        ((Glob.splitStatic pattern).2.split '/') names := by
  have hs : ∀ s ∈ Text.split '/' ['.', '*', '/', '.', '?'], s ≠ [] := by decide
  have hc : ∀ c ∈ ['.', '*', '/', '.', '?'], c ≠ '[' ∧ c ≠ '\x7b' ∧ c ≠ '\\' := by simp
  have h : (ofTree veiled ⟨['.']⟩).resolve [['.', '*', '/', '.', '?']] =
      .ok [['.', 'a', '/', '.', 'x']] := by decide +kernel
  exact ⟨h, hs, hc, resolve_shows hs hc (by decide) h (by simp)⟩

/-- The names of a path below a lead can be aligned with the segments of a pattern so that each one
with a point in front is taken by a segment with a point in front. -/
def IsAskedFor (pattern f : Text) : Prop :=
  ∃ names : List Text, (∀ n ∈ names, n ≠ [] ∧ '/' ∉ n) ∧
    f = Glob.joinLead (Glob.splitStatic pattern).1 (Text.join ['/'] names) ∧
    Glob.AlignedBy (fun s n => Glob.Fits s n ∧ (Glob.isDotted n = true → Glob.isDotted s = true))
      ((Glob.splitStatic pattern).2.split '/') names

/-- Without a lead the names are the parts of the path. -/
theorem isAskedFor_iff (hl : (Glob.splitStatic pattern).1 = []) (hf : ∀ n ∈ f.split '/', n ≠ []) :
    IsAskedFor pattern f ↔
      Glob.AlignedBy (fun s n => Glob.Fits s n ∧ (Glob.isDotted n = true → Glob.isDotted s = true))
        ((Glob.splitStatic pattern).2.split '/') (f.split '/') := by
  have hjoin : ∀ t, Glob.joinLead [] t = t := fun t => rfl
  rw [IsAskedFor, hl]
  simp only [hjoin]
  constructor
  · rintro ⟨names, hn, rfl, ha⟩
    have hne : names ≠ [] := by
      rintro rfl
      exact hf [] (by decide) rfl
    rwa [Text.split_join (fun n hm => (hn n hm).2) hne]
  · intro ha
    exact ⟨f.split '/', fun n hm => ⟨hf n hm, Text.not_mem_of_mem_split hm⟩,
      (Text.join_split '/' f).symm, ha⟩

/-- A segment for hidden names behind a double star lets the double star pass through a hidden
folder, and a name that encodes no text is taken by a star with its point. -/
theorem resolve_through_hidden_folder :
    (ofTree veiled ⟨['.']⟩).resolve [['*', '*', '/', '.', 'x']] = .ok [['.', 'a', '/', '.', 'x']] ∧
    ¬ IsAskedFor ['*', '*', '/', '.', 'x'] ['.', 'a', '/', '.', 'x'] ∧
    (ofTree garbled ⟨['.']⟩).resolve [['*']] = .ok [['.', '\uFFFD']] ∧
    ¬ IsAskedFor ['*'] ['.', '\uFFFD'] := by
  refine ⟨by decide +kernel, ?_, by decide +kernel, ?_⟩
  · rw [isAskedFor_iff (by decide) (by decide)]
    change ¬ Glob.AlignedBy _ [Glob.doubleStar, ['.', 'x']] [['.', 'a'], ['.', 'x']]
    rintro ⟨front, back, hback, -, hfront, ha⟩
    cases front with
    | nil =>
      have hl := Glob.AlignedBy.length_eq (by decide) ha
      rw [← List.nil_append back, ← hback] at hl
      cases hl
    | cons n front =>
      rw [List.cons_append, List.cons.injEq] at hback
      exact absurd ((hfront n List.mem_cons_self).2 (hback.1 ▸ rfl)) (by decide)
  · rw [isAskedFor_iff (by decide) (by decide)]
    change ¬ Glob.AlignedBy _ [['*']] [['.', '\uFFFD']]
    rintro ⟨name, back, hback, ⟨-, hdot⟩, -⟩
    cases hback
    exact absurd (hdot rfl) (by decide)

end SourceMarks.Matcher
