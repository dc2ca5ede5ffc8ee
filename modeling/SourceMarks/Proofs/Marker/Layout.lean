import SourceMarks.Proofs.Marker.Separate

/-!
New texts in the place of cache forms. Main statements: the load marker finds the same forms as
before, and no empty load marker comes up.
-/
namespace SourceMarks.Marker
variable {before x : Text} {f : Form} {ps : List Part} {onLoad onCache : Form → Text}

/-- A word on one line that goes on where the line holds other text does not reach a cache form. -/
theorem prefix_of_layout (h : Laid before ps) (hb : ¬ Indented before)
    (hx : ∀ c ∈ x, inLine c = true) (hp : x <+: layout Form.written onCache ps) :
    x <+: source ps := by
  induction h generalizing x with
  | nil => exact hp
  | @plain before c ps _ _ _ ih =>
    cases x with
    | nil => exact List.nil_prefix
    | cons d x =>
      obtain ⟨rfl, hp'⟩ := List.cons_prefix_cons.mp hp
      have hc := List.forall_mem_cons.mp hx
      have hb' : ¬ Indented (before ++ [d]) := not_indented_append hb (by simpa using hc.1)
      exact List.cons_prefix_cons.mpr ⟨rfl, ih hb' hc.2 hp'⟩
  | @load before f ps hf _ _ ih =>
    have hl := (loadForm?_eq_some_iff.mp hf).1
    refine Text.prefix_append_of_tail hp fun z hz hr => ih ?_ ?_ hr
    · exact not_indented_append hb hl.inLine_written
    · exact fun c hc => hx c (hz ▸ List.mem_append_right _ hc)
  | cache hi => exact absurd hi hb

theorem prefix_of_layout_plain {c : Char} (h : Laid (before ++ [c]) ps)
    (hx : ∀ d ∈ x, inLine d = true) (hp : '/' :: x <+: c :: layout Form.written onCache ps) :
    '/' :: x <+: c :: source ps := by
  obtain ⟨rfl, hr⟩ := List.cons_prefix_cons.mp hp
  exact List.cons_prefix_cons.mpr ⟨rfl, prefix_of_layout h (not_indented_slash before) hx hr⟩

theorem prefix_of_append_layout {y : Text} (h : Laid before ps) (hb : ¬ Indented before)
    (hx : ∀ c ∈ x, inLine c = true) (hp : x <+: y ++ layout Form.written onCache ps) :
    x <+: y ++ source ps := by
  refine Text.prefix_append_of_tail hp fun z hz hr => ?_
  have hz' : ∀ c ∈ z, inLine c = true := fun c hc => hx c (hz ▸ List.mem_append_right _ hc)
  exact prefix_of_layout h hb hz' hr

theorem loadForm?_layout_plain {c : Char} (h : Laid (before ++ [c]) ps)
    (hl : load.form? (c :: source ps) = none) :
    load.form? (c :: layout Form.written onCache ps) = none := by
  cases hg : load.form? (c :: layout Form.written onCache ps) with
  | none => rfl
  | some g =>
    obtain ⟨hg, hp⟩ := loadForm?_eq_some_iff.mp hg
    obtain ⟨x, hx⟩ := hg.opens
    have hi := hg.inLine_written
    have hs : g.written <+: c :: source ps := by
      rw [← hx] at hp hi ⊢
      exact prefix_of_layout_plain h (List.forall_mem_cons.mp hi).2 hp
    exact absurd (hl.symm.trans (loadForm?_eq_some_iff.mpr ⟨hg, hs⟩)) (by simp)

/-- With other texts in the place of the cache forms the load marker finds the same forms. -/
theorem load_pieces_layout (h : Laid before ps)
    (hc : ∀ f, .cache f ∈ ps → ¬ loadOpening <:+: onCache f) :
    load.pieces (layout Form.written onCache ps) = loadPieces onCache ps := by
  induction h with
  | nil => exact pieces_nil load
  | @plain before c ps hl _ h ih =>
    have hps := ih fun f hf => hc f (List.mem_cons_of_mem _ hf)
    rw [layout, loadPieces, ← hps]
    exact pieces_plain (loadForm?_layout_plain h hl)
  | @load before f ps hf _ h ih =>
    have hps := ih fun f hf => hc f (List.mem_cons_of_mem _ hf)
    rw [layout, loadPieces, ← hps]
    obtain ⟨hf, -⟩ := loadForm?_eq_some_iff.mp hf
    exact pieces_form (loadForm?_eq_some_iff.mpr ⟨hf, List.prefix_append f.written _⟩)
  | @cache before f ps _ _ hf h ih =>
    have hps := ih fun f hf => hc f (List.mem_cons_of_mem _ hf)
    rw [layout, loadPieces, ← hps]
    have hend : ∀ c ∈ (layout Form.written onCache ps).head?, inLine c = false :=
      line_ends_behind_cache h.separate hf
    exact pieces_append_of_clear (clear_of_line_end (hc f List.mem_cons_self) hend)

/-- Nor do other texts there make an empty load marker. -/
theorem emptyLoad_infix_of_layout (h : Laid before ps)
    (hc : ∀ f, .cache f ∈ ps → ¬ loadOpening <:+: onCache f)
    (hi : emptyLoad <:+: layout Form.written onCache ps) : emptyLoad <:+: source ps := by
  induction h with
  | nil => exact hi
  | @plain before c ps _ _ h ih =>
    have ih := ih fun f hf => hc f (List.mem_cons_of_mem _ hf)
    cases List.infix_cons_iff.mp hi with
    | inl hp =>
      have hx := (List.forall_mem_cons.mp inLine_emptyLoad).2
      exact (prefix_of_layout_plain h hx hp).isInfix
    | inr hr => exact List.infix_cons (ih hr)
  | @load before f ps hf _ h ih =>
    have ih := ih fun f hf => hc f (List.mem_cons_of_mem _ hf)
    have hl := (loadForm?_eq_some_iff.mp hf).1
    obtain ⟨s, hp, hs⟩ := List.infix_iff_prefix_suffix.mp hi
    cases Text.suffix_append_cases hs with
    | inl hr => exact List.infix_append_of_infix_right (ih (hp.isInfix.trans hr.isInfix))
    | inr hy =>
      obtain ⟨y, -, hy, rfl⟩ := hy
      have hp := prefix_of_append_layout h (hl.not_indented before) inLine_emptyLoad hp
      exact hp.isInfix.trans (List.suffix_append_self_iff.mpr hy).isInfix
  | @cache before f ps _ _ hf h ih =>
    have ih := ih fun f hf => hc f (List.mem_cons_of_mem _ hf)
    have hend : ∀ c ∈ (layout Form.written onCache ps).head?, inLine c = false :=
      line_ends_behind_cache h.separate hf
    cases Text.infix_of_head_not_mem (not_mem_of_head inLine_emptyLoad hend) hi with
    | inl hf =>
      have ho : loadOpening <+: emptyLoad := ⟨[')'], rfl⟩
      exact absurd (ho.isInfix.trans hf) (hc f List.mem_cons_self)
    | inr hr => exact List.infix_append_of_infix_right (ih hr)

end SourceMarks.Marker
