import SourceMarks.Proofs.Version.Target

/-!
What stamping leaves behind. Main statement: if no target holds a cache marker itself, no marker
with a line behind it is left, not even at the seams, and each marker's line break is gone.
-/
namespace SourceMarks.Version
open Marker
variable {token text p q r w : Text} {new : Text → Text} {f : Form}

/-- The ways in which a cache marker and the end of its line are written. -/
def markerLines : List Text := [bareNoCache ++ ['\n'], bareNoCache ++ ['\r', '\n']]

theorem noCacheForm?_eq_none_iff : noCacheForm? text = none ↔ ∀ w ∈ markerLines, ¬ w <+: text := by
  rw [← Option.not_isSome_iff_eq_none, isSome_noCacheForm?_iff]
  simp [markerLines]

theorem ends_of_mem_markerLines (h : w ∈ markerLines) :
    w.getLast? = some '\n' ∧ '=' ∉ w ∧ bareNoCache <+: w := by
  revert w
  decide

theorem payloads_eq_nil_of_not_infix (h : ∀ w ∈ markerLines, ¬ w <:+: text) :
    noCache.payloads text = [] := by
  induction text using piece_induction (m := noCache) with
  | nil => rw [payloads, pieces_nil]; rfl
  | plain c r hc ih =>
    rw [payloads_plain hc]
    exact ih fun w hw hi => h w hw (List.infix_cons hi)
  | form f r hf _ =>
    have hn : noCacheForm? (f.written ++ r) = none :=
      noCacheForm?_eq_none_iff.mpr fun w hw hp => h w hw hp.isInfix
    rw [form?, hn] at hf
    cases hf

/-- A versioned target has the version, which opens with an equals sign, between parts of the
target. -/
theorem exists_of_version (h : version p token = .ok q) :
    ∃ front back, q = front ++ '=' :: (token ++ back) ∧
      (∀ c ∈ front, c ∈ p ∨ c ∈ ['?', '&', 'v']) ∧ back <:+ p := by
  obtain ⟨x, y, joiner, hj, hxy, rfl⟩ := version_inserts h
  obtain ⟨lead, rfl, hlead⟩ : ∃ lead, joiner = lead ++ ['='] ∧ ∀ c ∈ lead, c ∈ ['?', '&', 'v'] := by
    simp only [joiners, List.mem_cons, List.not_mem_nil, or_false] at hj
    obtain rfl | rfl | rfl := hj
    · exact ⟨['?', 'v'], rfl, by simp⟩
    · exact ⟨['&', 'v'], rfl, by simp⟩
    · exact ⟨['v'], rfl, by simp⟩
  refine ⟨x ++ lead, y, by simp, fun c hc => ?_, (List.suffix_append x y).trans hxy⟩
  cases List.mem_append.mp hc with
  | inl hx => exact Or.inl (hxy.subset (List.mem_append_left y hx))
  | inr hl => exact Or.inr (hlead c hl)

theorem newline_not_mem_front {front : Text} (hp : ∀ c ∈ p, inLine c = true)
    (h : ∀ c ∈ front, c ∈ p ∨ c ∈ ['?', '&', 'v']) : '\n' ∉ front := by
  intro hm
  cases h '\n' hm with
  | inl hn => exact absurd (hp '\n' hn) (by decide)
  | inr hn => exact absurd hn (by decide)

/-- A word that ends with its line and has no equals sign is not read into a versioned target. -/
theorem prefix_of_stamped (hnew : ∀ p ∈ noCache.payloads text, version p token = .ok (new p))
    (hl : w.getLast? = some '\n') (he : '=' ∉ w) (hw : w <+: fill new (noCache.pieces text)) :
    w <+: text := by
  induction text using piece_induction (m := noCache) generalizing w with
  | nil => rwa [pieces_nil] at hw
  | plain c r hc ih =>
    rw [payloads_plain hc] at hnew
    rw [pieces_plain hc, fill_plain] at hw
    cases w with
    | nil => cases hl
    | cons d w =>
      obtain ⟨rfl, htail⟩ := List.cons_prefix_cons.mp hw
      refine List.cons_prefix_cons.mpr ⟨rfl, ?_⟩
      by_cases hn : w = []
      · exact hn ▸ List.nil_prefix
      · rw [List.getLast?_cons_of_ne_nil hn] at hl
        exact ih hnew hl (List.not_mem_of_not_mem_cons he) htail
  | form f r hf _ =>
    rw [payloads_form hf, List.forall_mem_cons] at hnew
    rw [pieces_form hf, fill_form] at hw
    obtain ⟨hc, -⟩ := noCacheForm?_eq_some_iff.mp hf
    obtain ⟨front, back, hq, hfront, -⟩ := exists_of_version hnew.1
    rw [hq, List.append_assoc] at hw
    have hp : w <+: front := Text.prefix_of_head_not_mem (by simpa using he) hw
    exact absurd (hp.subset (List.mem_of_getLast? hl)) (newline_not_mem_front hc.inLine hfront)

/-- Where a line ends, stamping changes nothing. -/
theorem head?_stamped (h : ∀ c ∈ r.head?, inLine c = false) :
    ∀ c ∈ (fill new (noCache.pieces r)).head?, inLine c = false := by
  cases r with
  | nil =>
    rw [pieces_nil]
    exact h
  | cons c r =>
    have hc : noCache.form? (c :: r) = none := by
      cases hf : noCache.form? (c :: r) with
      | none => rfl
      | some f =>
        obtain ⟨hcache, s, hs, -⟩ := noCacheForm?_eq_some_iff.mp hf
        have hslash : (c :: r).head? = some '/' := by
          rw [hs]
          cases hcache.written with
          | inl hw => rw [hw]; rfl
          | inr hw => rw [hw]; rfl
        exact absurd (h '/' hslash) (by decide)
    rw [pieces_plain hc]
    exact h

/-- A marker line that begins on a line begins with a whole marker there. -/
theorem bareNoCache_infix_of_seam {a b : Text} (hw : w ∈ markerLines)
    (ha : ∀ c ∈ a, inLine c = true) (hb : ∀ c ∈ b.head?, inLine c = false) (hi : w <:+: a ++ b) :
    bareNoCache <:+: a ∨ w <:+: b := by
  obtain ⟨hl, -, hbare⟩ := ends_of_mem_markerLines hw
  obtain hi | hi | ⟨x, y, -, -, rfl, hx, hy⟩ := List.infix_append_iff_ne_nil.mp hi
  · exact absurd (ha '\n' (hi.subset (List.mem_of_getLast? hl))) (by decide)
  · exact Or.inr hi
  · left
    have hhead : ∀ c ∈ y.head?, c ∉ bareNoCache := by
      intro c hc hm
      have hline : inLine c = true :=
        List.all_eq_true.mp (by decide : bareNoCache.all inLine = true) c hm
      obtain ⟨t, rfl⟩ := hy
      rw [hb c (by simp_all [List.head?_append])] at hline
      cases hline
    exact (Text.prefix_of_head_not_mem hhead hbare).isInfix.trans hx.isInfix

theorem not_markerLine_infix_stamped (ht : '/' ∉ token)
    (hnew : ∀ p ∈ noCache.payloads text, version p token = .ok (new p))
    (hbare : ∀ p ∈ noCache.payloads text, ¬ bareNoCache <:+: p) (hw : w ∈ markerLines) :
    ¬ w <:+: fill new (noCache.pieces text) := by
  obtain ⟨hl, he, hopen⟩ := ends_of_mem_markerLines hw
  induction text using piece_induction (m := noCache) with
  | nil =>
    rw [pieces_nil]
    intro hi
    rw [List.infix_nil.mp hi] at hl
    cases hl
  | plain c r hc ih =>
    have hwhole := prefix_of_stamped hnew hl he
    rw [payloads_plain hc] at hnew hbare
    rw [pieces_plain hc, fill_plain] at hwhole ⊢
    intro hi
    cases List.infix_cons_iff.mp hi with
    | inl hp => exact noCacheForm?_eq_none_iff.mp hc w hw (hwhole hp)
    | inr hi => exact ih hnew hbare hi
  | form f r hf ih =>
    rw [payloads_form hf, List.forall_mem_cons] at hnew hbare
    rw [pieces_form hf, fill_form]
    obtain ⟨hc, s, hs, hend⟩ := noCacheForm?_eq_some_iff.mp hf
    obtain rfl := List.append_cancel_left hs
    obtain ⟨front, back, hq, hfront, hback⟩ := exists_of_version hnew.1
    intro hi
    rw [hq, List.append_assoc] at hi
    cases Text.infix_of_head_not_mem (by simpa using he) hi with
    | inl hi =>
      exact newline_not_mem_front hc.inLine hfront (hi.subset (List.mem_of_getLast? hl))
    | inr hi =>
      -- Neither the equals sign nor the version holds a slash, with which a marker begins.
      obtain ⟨x, rfl⟩ : ∃ x, w = '/' :: x := by
        obtain ⟨t, rfl⟩ := hopen
        exact ⟨_, rfl⟩
      have hslash : '/' ∉ '=' :: token := by simp [ht]
      rw [List.cons_append, List.append_assoc, ← List.cons_append] at hi
      have hline : ∀ c ∈ back, inLine c = true := fun c hm => hc.inLine c (hback.subset hm)
      cases bareNoCache_infix_of_seam hw hline (head?_stamped hend)
        (Text.infix_of_not_mem hslash hi) with
      | inl hb => exact hbare.1 (hb.trans hback.isInfix)
      | inr hi => exact ih hnew.2 hbare.2 hi

/-- Each cache marker's line break is gone. -/
theorem count_stamped (ht : '\n' ∉ token)
    (hnew : ∀ p ∈ noCache.payloads text, version p token = .ok (new p)) :
    (fill new (noCache.pieces text)).count '\n' + (noCache.payloads text).length =
      text.count '\n' := by
  induction text using piece_induction (m := noCache) with
  | nil => rw [payloads, pieces_nil]; rfl
  | plain c r hc ih =>
    rw [payloads_plain hc] at hnew ⊢
    rw [pieces_plain hc, fill_plain, List.count_cons, List.count_cons, ← ih hnew]
    omega
  | form f r hf ih =>
    rw [payloads_form hf, List.forall_mem_cons] at hnew
    rw [payloads_form hf, pieces_form hf, fill_form, List.count_append, List.count_append,
      List.length_cons, ← ih hnew.2]
    obtain ⟨hc, -⟩ := noCacheForm?_eq_some_iff.mp hf
    obtain ⟨front, back, hq, hfront, hback⟩ := exists_of_version hnew.1
    have hpayload : f.payload.count '\n' = 0 := by
      refine List.count_eq_zero.mpr fun hm => ?_
      exact absurd (hc.inLine '\n' hm) (by decide)
    have hnone : (new f.payload).count '\n' = 0 := by
      have hb : '\n' ∉ back := fun hm => List.count_eq_zero.mp hpayload (hback.subset hm)
      rw [hq, List.count_eq_zero]
      simp [newline_not_mem_front hc.inLine hfront, ht, hb]
    have hone : f.written.count '\n' = 1 := by
      cases hc.written with
      | inl hw => rw [hw, List.count_append, List.count_cons_self, hpayload]; rfl
      | inr hw =>
        rw [hw, List.count_append, List.count_cons_of_ne (by decide),
          List.count_cons_self, hpayload]
        rfl
    omega

end SourceMarks.Version
