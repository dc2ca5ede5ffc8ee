import SourceMarks.Proofs.Marker.Parts
import Mathlib.Data.List.Infix

/-!
Parts of which none begins within another. Main statements: every text without load markers in the
payloads of its cache markers, and with none that ends in an opening parenthesis, can be cut into
such parts, and with quoted texts in the place of the load forms the cache marker finds the same
forms.
-/
namespace SourceMarks.Marker
variable {before x : Text} {f : Form} {ps : List Part} {onLoad onCache : Form → Text}

/-- What the load marker leaves of parts when other texts stand for their cache forms. -/
def loadPieces (onCache : Form → Text) : List Part → List Piece
  | [] => []
  | .plain c :: ps => .plain c :: loadPieces onCache ps
  | .load f :: ps => .form f :: loadPieces onCache ps
  | .cache f :: ps => (onCache f).map .plain ++ loadPieces onCache ps

def cachePieces (onLoad : Form → Text) : List Part → List Piece
  | [] => []
  | .plain c :: ps => .plain c :: cachePieces onLoad ps
  | .load f :: ps => (onLoad f).map .plain ++ cachePieces onLoad ps
  | .cache f :: ps => .form f :: cachePieces onLoad ps

def Part.loadPayload? : Part → Option Text
  | .load f => some f.payload
  | .plain _ | .cache _ => none

def Part.cachePayload? : Part → Option Text
  | .cache f => some f.payload
  | .plain _ | .load _ => none

theorem fill_loadPieces (new : Text → Text) (onCache : Form → Text) (ps : List Part) :
    fill new (loadPieces onCache ps) = layout (fun f => new f.payload) onCache ps := by
  induction ps with
  | nil => rfl
  | cons p ps ih =>
    cases p with
    | plain c => rw [loadPieces, fill_plain, ih, layout]
    | load f => rw [loadPieces, fill_form, ih, layout]
    | cache f => rw [loadPieces, fill_append, fill_map_plain, ih, layout]

theorem fill_cachePieces (new : Text → Text) (onLoad : Form → Text) (ps : List Part) :
    fill new (cachePieces onLoad ps) = layout onLoad (fun f => new f.payload) ps := by
  induction ps with
  | nil => rfl
  | cons p ps ih =>
    cases p with
    | plain c => rw [cachePieces, fill_plain, ih, layout]
    | load f => rw [cachePieces, fill_append, fill_map_plain, ih, layout]
    | cache f => rw [cachePieces, fill_form, ih, layout]

theorem filterMap_loadPieces (onCache : Form → Text) (ps : List Part) :
    (loadPieces onCache ps).filterMap Piece.payload? = ps.filterMap Part.loadPayload? := by
  induction ps with
  | nil => rfl
  | cons p ps ih =>
    cases p with
    | plain c => exact ih
    | load f => exact congrArg (f.payload :: ·) ih
    | cache f => rw [loadPieces, List.filterMap_append, filterMap_map_plain, ih]; rfl

theorem filterMap_cachePieces (onLoad : Form → Text) (ps : List Part) :
    (cachePieces onLoad ps).filterMap Piece.payload? = ps.filterMap Part.cachePayload? := by
  induction ps with
  | nil => rfl
  | cons p ps ih =>
    cases p with
    | plain c => exact ih
    | load f => rw [cachePieces, List.filterMap_append, filterMap_map_plain, ih]; rfl
    | cache f => exact congrArg (f.payload :: ·) ih

/-- No form of one marker begins within a form of the other. -/
inductive Separate : List Part → Prop
  | nil : Separate []
  | plain {c : Char} {ps : List Part} :
    Marker.load.form? (c :: source ps) = none → noCache.form? (c :: source ps) = none →
      Separate ps → Separate (.plain c :: ps)
  | load {f : Form} {ps : List Part} :
    Marker.load.form? (f.written ++ source ps) = some f → noCache.Clear f.written (source ps) →
      Separate ps → Separate (.load f :: ps)
  | cache {f : Form} {ps : List Part} :
    noCache.form? (f.written ++ source ps) = some f → Marker.load.Clear f.written (source ps) →
      Separate ps → Separate (.cache f :: ps)

theorem not_mem_of_head {r : Text} (hx : ∀ c ∈ x, inLine c = true)
    (hr : ∀ c ∈ r.head?, inLine c = false) : ∀ c ∈ r.head?, c ∉ x := by
  intro c hc hm
  have hl := hx c hm
  rw [hr c hc] at hl
  cases hl

/-- No load form begins in a text before the end of a line, if its opening is not in the text. -/
theorem clear_of_line_end {r : Text} (hx : ¬ loadOpening <:+: x)
    (hr : ∀ c ∈ r.head?, inLine c = false) : load.Clear x r := by
  intro y _ hy
  cases hg : load.form? (y ++ r) with
  | none => rfl
  | some g =>
    obtain ⟨hg, hp⟩ := loadForm?_eq_some_iff.mp hg
    have ho := Text.prefix_of_head_not_mem (not_mem_of_head inLine_loadOpening hr)
      (hg.opens.trans hp)
    exact absurd (ho.isInfix.trans hy.isInfix) hx

theorem Laid.separate (h : Laid before ps) : Separate ps := by
  induction h with
  | nil => exact .nil
  | plain hl hc _ ih => exact .plain hl hc ih
  | load hf hc _ ih => exact .load hf hc ih
  | @cache before f ps hi hp hf _ ih =>
    obtain ⟨hc, r, hr, hend⟩ := noCacheForm?_eq_some_iff.mp hf
    obtain rfl := List.append_cancel_left hr
    exact .cache hf (clear_of_line_end (hc.not_loadOpening_infix hp) hend) ih

theorem load_pieces_source (h : Separate ps) :
    load.pieces (source ps) = loadPieces Form.written ps := by
  induction h with
  | nil => exact pieces_nil load
  | plain hl _ _ ih => exact (pieces_plain hl).trans (congrArg _ ih)
  | load hf _ _ ih => exact (pieces_form hf).trans (congrArg _ ih)
  | cache _ hc _ ih => exact (pieces_append_of_clear hc).trans (congrArg _ ih)

/-- A line that ends where the parts go on still ends there with new texts in place of the forms. -/
theorem head?_layout (h : Separate ps) (hs : ∀ c ∈ (source ps).head?, inLine c = false) :
    ∀ c ∈ (layout onLoad onCache ps).head?, inLine c = false := by
  cases h with
  | nil => exact hs
  | plain => exact hs
  | load hf =>
    obtain ⟨hf, -⟩ := loadForm?_eq_some_iff.mp hf
    rw [source, layout, hf.written] at hs
    exact absurd (hs '/' rfl) (by decide)
  | cache hf =>
    obtain ⟨hf, -⟩ := noCacheForm?_eq_some_iff.mp hf
    rw [source, layout] at hs
    cases hf.written with
    | inl hw =>
      rw [hw] at hs
      exact absurd (hs '/' rfl) (by decide)
    | inr hw =>
      rw [hw] at hs
      exact absurd (hs '/' rfl) (by decide)

/-- The line of a cache form ends behind it, whatever stands for the forms that follow. -/
theorem line_ends_behind_cache (h : Separate ps)
    (hf : noCache.form? (f.written ++ source ps) = some f) :
    ∀ c ∈ (layout onLoad onCache ps).head?, inLine c = false := by
  obtain ⟨-, r, hr, hend⟩ := noCacheForm?_eq_some_iff.mp hf
  obtain rfl := List.append_cancel_left hr
  exact head?_layout h hend

/-- A word without quotes is not read into the quoted texts that stand for load forms. -/
theorem prefix_of_layout_quoted (hl : ∀ f, .load f ∈ ps → Text.Quoted (onLoad f)) (hq : '"' ∉ x)
    (hp : x <+: layout onLoad Form.written ps) : x <+: source ps := by
  induction ps generalizing x with
  | nil => exact hp
  | cons p ps ih =>
    have hps : ∀ f, .load f ∈ ps → Text.Quoted (onLoad f) :=
      fun f hf => hl f (List.mem_cons_of_mem p hf)
    cases p with
    | plain c =>
      refine Text.prefix_append_of_tail (y := [c]) hp fun z hz hr => ih hps (fun hm => hq ?_) hr
      exact hz ▸ List.mem_append_right _ hm
    | load f =>
      cases x with
      | nil => exact List.nil_prefix
      | cons c x =>
        obtain ⟨r, hr⟩ := hp
        have hc := congrArg List.head? hr
        rw [layout, List.head?_append, List.head?_append, (hl f List.mem_cons_self).head] at hc
        obtain rfl : c = '"' := by simpa using hc
        exact absurd List.mem_cons_self hq
    | cache f =>
      refine Text.prefix_append_of_tail hp fun z hz hr => ih hps (fun hm => hq ?_) hr
      exact hz ▸ List.mem_append_right _ hm

theorem form?_eq_none_of_words {a b : Text} (hb : noCache.form? b = none)
    (h : ∀ x : Text, '"' ∉ x → x <+: a → x <+: b) : noCache.form? a = none := by
  rw [form?, ← Option.not_isSome_iff_eq_none, isSome_noCacheForm?_iff] at hb ⊢
  intro ha
  cases ha with
  | inl hp => exact hb (Or.inl (h _ (by decide) hp))
  | inr hp => exact hb (Or.inr (h _ (by decide) hp))

theorem clear_of_quoted {r : Text} (hq : Text.Quoted x) (hc : noCache.Clear x []) :
    noCache.Clear x r := by
  intro y hn hy
  refine form?_eq_none_of_words (hc y hn hy) fun w hw hp => ?_
  have hl : y.getLast? = some '"' := by rw [Text.getLast?_of_suffix hn hy, hq.last]
  rw [List.append_nil]
  exact Text.prefix_of_last_not_mem hl hw hp

/-- With quoted texts in the place of the load forms the cache marker finds the same forms. -/
theorem cache_pieces_layout (h : Separate ps)
    (hl : ∀ f, .load f ∈ ps → Text.Quoted (onLoad f) ∧ noCache.Clear (onLoad f) []) :
    noCache.pieces (layout onLoad Form.written ps) = cachePieces onLoad ps := by
  induction h with
  | nil => exact pieces_nil noCache
  | @plain c ps _ hc _ ih =>
    have hps := ih fun f hf => hl f (List.mem_cons_of_mem _ hf)
    rw [layout, cachePieces, ← hps]
    refine pieces_plain (form?_eq_none_of_words hc fun x hx hp => ?_)
    exact prefix_of_layout_quoted (fun f hf => (hl f hf).1) hx hp
  | @load f ps _ _ _ ih =>
    have hps := ih fun f hf => hl f (List.mem_cons_of_mem _ hf)
    obtain ⟨hq, hc⟩ := hl f List.mem_cons_self
    rw [layout, cachePieces, ← hps]
    exact pieces_append_of_clear (clear_of_quoted hq hc)
  | @cache f ps hf _ h ih =>
    have hps := ih fun f hf => hl f (List.mem_cons_of_mem _ hf)
    rw [layout, cachePieces, ← hps]
    obtain ⟨hc, -⟩ := noCacheForm?_eq_some_iff.mp hf
    exact pieces_form (noCacheForm?_eq_some_iff.mpr ⟨hc, _, rfl, line_ends_behind_cache h hf⟩)

theorem cache_pieces_source (h : Separate ps) :
    noCache.pieces (source ps) = cachePieces Form.written ps := by
  induction h with
  | nil => exact pieces_nil noCache
  | plain _ hc _ ih => exact (pieces_plain hc).trans (congrArg _ ih)
  | load _ hc _ ih => exact (pieces_append_of_clear hc).trans (congrArg _ ih)
  | cache hf _ _ ih => exact (pieces_form hf).trans (congrArg _ ih)

section Existence
variable {m : Marker} {y r t : Text}

theorem clear_append (hx : m.Clear x (y ++ r)) (hy : m.Clear y r) : m.Clear (x ++ y) r := by
  intro s hn hs
  cases Text.suffix_append_cases hs with
  | inl h => exact hy s hn h
  | inr h =>
    obtain ⟨z, hz, hzx, rfl⟩ := h
    rw [List.append_assoc]
    exact hx z hz hzx

theorem clear_of_payloads_eq_nil (h : m.payloads x = []) : m.Clear x [] := by
  induction x using piece_induction (m := m) with
  | nil =>
    intro y hn hy
    exact absurd (List.suffix_nil.mp hy) hn
  | plain c r hc ih =>
    rw [payloads_plain hc] at h
    exact clear_cons_iff.mpr ⟨by rwa [List.append_nil], ih h⟩
  | form f r hf ih =>
    rw [payloads_form hf] at h
    cases h

/-- A load form does not go on behind the line it begins on. -/
theorem load_clear_of_line_end (hx : load.Clear x []) (hr : ∀ c ∈ r.head?, inLine c = false) :
    load.Clear x r := by
  intro y hn hy
  cases hg : load.form? (y ++ r) with
  | none => rfl
  | some g =>
    obtain ⟨hg, hp⟩ := loadForm?_eq_some_iff.mp hg
    have hw := Text.prefix_of_head_not_mem (not_mem_of_head hg.inLine_written hr) hp
    rw [← hx y hn hy, List.append_nil]
    exact (loadForm?_eq_some_iff.mpr ⟨hg, hw⟩).symm

theorem load_clear_of_getLast? (hx : x.getLast? = some '\n') (hn : 'L' ∉ x) : load.Clear x r := by
  intro y hy hs
  cases hg : load.form? (y ++ r) with
  | none => rfl
  | some g =>
    obtain ⟨hg, hp⟩ := loadForm?_eq_some_iff.mp hg
    have hl : y.getLast? = some '\n' := by rw [Text.getLast?_of_suffix hy hs, hx]
    have ho := Text.prefix_of_last_not_mem hl (by decide) (hg.opens.trans hp)
    exact absurd (hs.subset (ho.subset (by decide : 'L' ∈ loadOpening))) hn

theorem load_clear_of_isCache (hf : IsCache f) (hp : load.payloads f.payload = [])
    (hr : ∀ c ∈ r.head?, inLine c = false) : load.Clear f.written r := by
  have hline := load_clear_of_line_end (clear_of_payloads_eq_nil hp) hr
  cases hf.written with
  | inl hw =>
    rw [hw, List.append_cons]
    exact clear_append (load_clear_of_getLast? (by decide) (by decide)) hline
  | inr hw =>
    rw [hw, List.append_cons, List.append_cons]
    exact clear_append (load_clear_of_getLast? (by decide) (by decide)) hline

/-- A load form can close a cache marker, but then its payload ends in an opening parenthesis. -/
theorem not_prefix_of_isLoad (hf : IsLoad f) (hp : f.payload.getLast? ≠ some '(') {c : Char}
    (hc : inLine c = false) (hn : y ≠ []) (hy : y <:+ f.written) (rest : Text) :
    ¬ bareNoCache ++ c :: rest <+: y ++ r := by
  intro h
  have hcy : c ∉ y := by
    intro hm
    have hi := hf.inLine_written c (hy.subset hm)
    rw [hc] at hi
    cases hi
  have hw : f.written = loadOpening ++ f.payload ++ [')'] := by
    rw [hf.written, List.append_assoc]
  have hl : y.getLast? = some ')' := by
    rw [Text.getLast?_of_suffix hn hy, hw, List.getLast?_concat]
  have hb : y <+: bareNoCache := by
    cases List.prefix_or_prefix_of_prefix (List.prefix_append y r) h with
    | inl h => exact Text.prefix_of_head_not_mem (by simpa using hcy) h
    | inr h => exact absurd (h.subset (by simp)) hcy
  have hall : ∀ y ∈ bareNoCache.inits, y.getLast? = some ')' → y = bareNoCache := by decide
  obtain rfl := hall y ((List.mem_inits _ _).mpr hb) hl
  have hopen : bareNoCache.dropLast <:+ loadOpening ++ f.payload := by
    have hd : bareNoCache = bareNoCache.dropLast ++ [')'] := by decide
    rw [hw, hd] at hy
    exact List.suffix_append_self_iff.mp hy
  have hlast := Text.getLast?_of_suffix (by decide) hopen
  have hne := List.getLast?_eq_none_iff.not.mpr hf.nonempty
  rw [List.getLast?_append] at hlast
  cases hp' : f.payload.getLast? with
  | none => exact hne hp'
  | some d =>
    rw [hp'] at hlast hp
    exact hp hlast.symm

theorem cache_clear_of_isLoad (hf : IsLoad f) (hp : f.payload.getLast? ≠ some '(') :
    noCache.Clear f.written r := by
  intro y hn hy
  rw [form?, ← Option.not_isSome_iff_eq_none, isSome_noCacheForm?_iff]
  intro h
  cases h with
  | inl h => exact not_prefix_of_isLoad hf hp (by decide) hn hy _ h
  | inr h => exact not_prefix_of_isLoad hf hp (by decide) hn hy _ h

theorem exists_separate (hc : ∀ p ∈ noCache.payloads t, load.payloads p = [])
    (hl : ∀ p ∈ load.payloads t, p.getLast? ≠ some '(') :
    ∃ ps, source ps = t ∧ Separate ps := by
  -- on the length, since the cut goes on behind whichever form begins here
  induction hn : t.length using Nat.strongRecOn generalizing t with
  | ind n ih =>
    subst hn
    cases t with
    | nil => exact ⟨[], rfl, .nil⟩
    | cons c r =>
      cases hf : noCache.form? (c :: r) with
      | some f =>
        obtain ⟨s, hs, hlt⟩ := exists_shorter_of_form? hf
        rw [hs] at hc hl hf ⊢
        rw [payloads_form hf, List.forall_mem_cons] at hc
        obtain ⟨hcache, r', hr', hend⟩ := noCacheForm?_eq_some_iff.mp hf
        obtain rfl := List.append_cancel_left hr'
        have hclear := load_clear_of_isCache hcache hc.1 hend
        rw [payloads, pieces_append_of_clear hclear, List.filterMap_append,
          filterMap_map_plain] at hl
        obtain ⟨ps, rfl, hps⟩ := ih s.length hlt hc.2 hl rfl
        exact ⟨.cache f :: ps, rfl, .cache hf hclear hps⟩
      | none =>
        cases hg : load.form? (c :: r) with
        | some f =>
          obtain ⟨s, hs, hlt⟩ := exists_shorter_of_form? hg
          rw [hs] at hc hl hg ⊢
          rw [payloads_form hg, List.forall_mem_cons] at hl
          have hclear := cache_clear_of_isLoad (r := s) (loadForm?_eq_some_iff.mp hg).1 hl.1
          rw [payloads, pieces_append_of_clear hclear, List.filterMap_append,
            filterMap_map_plain] at hc
          obtain ⟨ps, rfl, hps⟩ := ih s.length hlt hc hl.2 rfl
          exact ⟨.load f :: ps, rfl, .load hg hclear hps⟩
        | none =>
          rw [payloads_plain hf] at hc
          rw [payloads_plain hg] at hl
          obtain ⟨ps, rfl, hps⟩ := ih r.length (Nat.lt_succ_self r.length) hc hl rfl
          exact ⟨.plain c :: ps, rfl, .plain hg hf hps⟩

end Existence

end SourceMarks.Marker
