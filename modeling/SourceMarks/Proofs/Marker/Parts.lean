import SourceMarks.Proofs.Marker.Replacement

/-!
Texts cut at both markers at once. This is possible where only blanks stand before a cache marker on
its line and no load marker opens on the line behind it.
-/
namespace SourceMarks.Marker
variable {before x : Text} {f : Form}

/-- A part of a text: a character outside all forms, or a form of one of the markers. -/
inductive Part
  | plain (c : Char)
  | load (f : Form)
  | cache (f : Form)

def layout (onLoad onCache : Form → Text) : List Part → Text
  | [] => []
  | .plain c :: ps => c :: layout onLoad onCache ps
  | .load f :: ps => onLoad f ++ layout onLoad onCache ps
  | .cache f :: ps => onCache f ++ layout onLoad onCache ps

def source (ps : List Part) : Text := layout Form.written Form.written ps

/-- Only spaces and tabs stand behind the last line break. -/
def Indented (before : Text) : Prop := ∀ c ∈ before.reverse.takeWhile inLine, c = ' ' ∨ c = '\t'

instance (before : Text) : Decidable (Indented before) :=
  List.decidableBAll (fun c => c = ' ' ∨ c = '\t') (before.reverse.takeWhile inLine)

/-- The forms among pieces stand behind blanks on their lines, and open no load marker. -/
def Apart (before : Text) (pieces : List Piece) : Prop :=
  ∀ ps f qs, pieces = ps ++ .form f :: qs →
    Indented (before ++ written ps) ∧ ¬ loadOpening <:+: f.payload

/-- Parts cut from the text that goes on where `before` ends. -/
inductive Laid : (before : Text) → List Part → Prop
  | nil {before : Text} : Laid before []
  | plain {before : Text} {c : Char} {ps : List Part} :
    Marker.load.form? (c :: source ps) = none → noCache.form? (c :: source ps) = none →
      Laid (before ++ [c]) ps → Laid before (.plain c :: ps)
  | load {before : Text} {f : Form} {ps : List Part} :
    Marker.load.form? (f.written ++ source ps) = some f → noCache.Clear f.written (source ps) →
      Laid (before ++ f.written) ps → Laid before (.load f :: ps)
  | cache {before : Text} {f : Form} {ps : List Part} :
    Indented before → ¬ loadOpening <:+: f.payload →
      noCache.form? (f.written ++ source ps) = some f →
        Laid (before ++ f.written) ps → Laid before (.cache f :: ps)

theorem not_indented_append (h : ¬ Indented before) (hx : ∀ c ∈ x, inLine c = true) :
    ¬ Indented (before ++ x) := by
  intro hi
  refine h fun c hc => hi c ?_
  rw [List.reverse_append, List.takeWhile_append_of_pos (by simpa using hx)]
  exact List.mem_append_right _ hc

theorem not_indented_slash (before : Text) : ¬ Indented (before ++ ['/']) := by
  intro hi
  have hc := hi '/' (by simp [inLine])
  revert hc
  decide

theorem IsLoad.inLine_written (h : IsLoad f) : ∀ c ∈ f.written, inLine c = true := by
  intro c hc
  rw [h.written] at hc
  simp only [List.mem_append, List.mem_singleton] at hc
  cases hc with
  | inl ho => exact inLine_loadOpening c ho
  | inr hc =>
    cases hc with
    | inl hp => exact (Bool.and_eq_true_iff.mp (h.closed c hp)).2
    | inr he =>
      subst he
      rfl

theorem IsLoad.opens (h : IsLoad f) : loadOpening <+: f.written := by
  rw [h.written]
  exact List.prefix_append loadOpening _

theorem IsLoad.not_indented (h : IsLoad f) (before : Text) : ¬ Indented (before ++ f.written) := by
  have hl := h.inLine_written
  obtain ⟨x, hx⟩ := h.opens
  change '/' :: _ = f.written at hx
  rw [← hx] at hl ⊢
  rw [← List.singleton_append, ← List.append_assoc]
  exact not_indented_append (not_indented_slash before) (List.forall_mem_cons.mp hl).2

theorem Apart.head {ps : List Piece} (h : Apart before (.form f :: ps)) :
    Indented before ∧ ¬ loadOpening <:+: f.payload := by
  have hf := h [] f ps rfl
  rwa [written, List.flatMap_nil, List.append_nil] at hf

theorem Apart.behind {ps qs : List Piece} (h : Apart before (ps ++ qs)) :
    Apart (before ++ written ps) qs := by
  intro rs f ss hr
  have hf := h (ps ++ rs) f ss (by rw [hr, List.append_assoc])
  rwa [written_append, ← List.append_assoc] at hf

theorem Apart.behind_plain {c : Char} {ps : List Piece} (h : Apart before (.plain c :: ps)) :
    Apart (before ++ [c]) ps :=
  @Apart.behind before [.plain c] ps h

theorem Apart.behind_form {ps : List Piece} (h : Apart before (.form f :: ps)) :
    Apart (before ++ f.written) ps := by
  have hb := @Apart.behind before [.form f] ps h
  rwa [written_form, written, List.flatMap_nil, List.append_nil] at hb

/-- No cache form begins on the rest of a line that holds other text. -/
theorem clear_of_not_indented {r : Text} (hx : ∀ c ∈ x, inLine c = true) (hb : ¬ Indented before)
    (h : Apart before (noCache.pieces (x ++ r))) : noCache.Clear x r := by
  induction x generalizing before with
  | nil =>
    intro y hn hy
    exact absurd (List.suffix_nil.mp hy) hn
  | cons c x ih =>
    rw [List.cons_append] at h
    cases hf : noCache.form? (c :: (x ++ r)) with
    | some f =>
      obtain ⟨-, s, hs⟩ := exists_of_form? hf
      rw [hs] at h hf
      rw [pieces_form hf] at h
      exact absurd h.head.1 hb
    | none =>
      rw [pieces_plain hf] at h
      have hc := List.forall_mem_cons.mp hx
      have hb' : ¬ Indented (before ++ [c]) := not_indented_append hb (by simpa using hc.1)
      exact clear_cons_iff.mpr ⟨hf, ih hc.2 hb' h.behind_plain⟩

theorem clear_of_isLoad {r : Text} (hf : IsLoad f) (hc : noCache.form? (f.written ++ r) = none)
    (h : Apart before (noCache.pieces (f.written ++ r))) : noCache.Clear f.written r := by
  have hl := hf.inLine_written
  obtain ⟨x, hx⟩ := hf.opens
  change '/' :: _ = f.written at hx
  rw [← hx] at hc h hl ⊢
  rw [List.cons_append] at hc h
  rw [pieces_plain hc] at h
  have hx := clear_of_not_indented (List.forall_mem_cons.mp hl).2 (not_indented_slash before)
    h.behind_plain
  exact clear_cons_iff.mpr ⟨hc, hx⟩

/-- Every text whose cache forms stand apart can be cut. -/
theorem exists_laid {t : Text} (h : Apart before (noCache.pieces t)) :
    ∃ ps, source ps = t ∧ Laid before ps := by
  -- on the length, since the cut goes on behind whichever form begins here
  induction hn : t.length using Nat.strongRecOn generalizing before t with
  | ind n ih =>
    subst hn
    cases t with
    | nil => exact ⟨[], rfl, .nil⟩
    | cons c r =>
      cases hc : noCache.form? (c :: r) with
      | some f =>
        obtain ⟨s, hs, hlt⟩ := exists_shorter_of_form? hc
        rw [hs] at h hc ⊢
        rw [pieces_form hc] at h
        obtain ⟨ps, rfl, hps⟩ := ih s.length hlt h.behind_form rfl
        exact ⟨.cache f :: ps, rfl, .cache h.head.1 h.head.2 hc hps⟩
      | none =>
        cases hl : load.form? (c :: r) with
        | some f =>
          obtain ⟨s, hs, hlt⟩ := exists_shorter_of_form? hl
          rw [hs] at h hc hl ⊢
          have hclear := clear_of_isLoad (loadForm?_eq_some_iff.mp hl).1 hc h
          rw [pieces_append_of_clear hclear] at h
          have hb := h.behind
          rw [written_map_plain] at hb
          obtain ⟨ps, rfl, hps⟩ := ih s.length hlt hb rfl
          exact ⟨.load f :: ps, rfl, .load hl hclear hps⟩
        | none =>
          rw [pieces_plain hc] at h
          obtain ⟨ps, rfl, hps⟩ := ih r.length (Nat.lt_succ_self r.length) h.behind_plain rfl
          exact ⟨.plain c :: ps, rfl, .plain hl hc hps⟩

/-- A cache form as it is written opens a load marker in its payload only. -/
theorem IsCache.not_loadOpening_infix (h : IsCache f) (hp : ¬ loadOpening <:+: f.payload) :
    ¬ loadOpening <:+: f.written := by
  intro hi
  have hb : ∀ c r, c ∉ loadOpening → '/' ∉ c :: r →
      ¬ loadOpening <:+: bareNoCache ++ (c :: r ++ f.payload) := by
    intro c r hc hr hi
    cases Text.infix_of_head_not_mem (by simpa using hc) hi with
    | inl hb => exact absurd (hb.subset (by decide : 'L' ∈ _)) (by decide)
    | inr hl => exact hp (Text.infix_of_not_mem hr hl)
  cases h.written with
  | inl hw => exact hb '\n' [] (by decide) (by decide) (hw ▸ hi)
  | inr hw => exact hb '\r' ['\n'] (by decide) (by decide) (hw ▸ hi)

theorem Laid.isCache {ps : List Part} (h : Laid before ps) (hf : .cache f ∈ ps) :
    IsCache f ∧ ¬ loadOpening <:+: f.payload := by
  induction h with
  | nil => cases hf
  | plain _ _ _ ih =>
    cases hf with
    | tail _ hf => exact ih hf
  | load _ _ _ ih =>
    cases hf with
    | tail _ hf => exact ih hf
  | cache _ hp hc _ ih =>
    cases hf with
    | head => exact ⟨(noCacheForm?_eq_some_iff.mp hc).1, hp⟩
    | tail _ hf => exact ih hf

theorem Laid.not_loadOpening_infix {ps : List Part} (h : Laid before ps) (hf : .cache f ∈ ps) :
    ¬ loadOpening <:+: f.written := by
  obtain ⟨hc, hp⟩ := h.isCache hf
  exact hc.not_loadOpening_infix hp

end SourceMarks.Marker
