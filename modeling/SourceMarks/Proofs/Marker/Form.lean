import Mathlib.Data.List.TakeWhile
import SourceMarks.Marker.Basic
import SourceMarks.Proofs.Text.Search

/-! Which texts begin with a form of a marker, and what such a form looks like. -/
namespace SourceMarks.Marker
variable {t r : Text} {f : Form}

/-- A load form is the opening, a payload, and the first closing parenthesis after it. -/
structure IsLoad (f : Form) : Prop where
  nonempty : f.payload ≠ []
  closed : ∀ c ∈ f.payload, inPayload c = true
  written : f.written = loadOpening ++ (f.payload ++ [')'])

/-- A cache form is the marker, a line break, and the line behind it. -/
structure IsCache (f : Form) : Prop where
  inLine : ∀ c ∈ f.payload, Marker.inLine c = true
  written : f.written = bareNoCache ++ '\n' :: f.payload ∨
    f.written = bareNoCache ++ '\r' :: '\n' :: f.payload

theorem inLine_loadOpening : ∀ c ∈ loadOpening, inLine c = true := List.all_eq_true.mp rfl

theorem inLine_emptyLoad : ∀ c ∈ emptyLoad, inLine c = true := List.all_eq_true.mp rfl

theorem inPayload_loadOpening : ∀ c ∈ loadOpening, inPayload c = true := List.all_eq_true.mp rfl

theorem takeWhile_append_of_head {p : Char → Bool} (hr : ∀ c ∈ r.head?, p c = false) (x : Text) :
    (x ++ r).takeWhile p = x.takeWhile p := by
  induction x with
  | nil => cases r <;> simp_all
  | cons c x ih => simp [List.takeWhile_cons, ih]

theorem dropWhile_append_of_head {p : Char → Bool} (hr : ∀ c ∈ r.head?, p c = false) (x : Text) :
    (x ++ r).dropWhile p = x.dropWhile p ++ r := by
  induction x with
  | nil => cases r <;> simp_all
  | cons c x ih => cases hc : p c <;> simp [hc, ih]

theorem takeWhile_of_head {p : Char → Bool} {x : Text} (hx : ∀ c ∈ x, p c = true)
    (hr : ∀ c ∈ r.head?, p c = false) : (x ++ r).takeWhile p = x := by
  rw [takeWhile_append_of_head hr, List.takeWhile_eq_self_iff.mpr hx]

theorem dropWhile_of_head {p : Char → Bool} {x : Text} (hx : ∀ c ∈ x, p c = true)
    (hr : ∀ c ∈ r.head?, p c = false) : (x ++ r).dropWhile p = r := by
  rw [dropWhile_append_of_head hr, List.dropWhile_eq_nil_iff.mpr hx, List.nil_append]

theorem head?_dropWhile_not {p : Char → Bool} {x : Text} :
    ∀ c ∈ (x.dropWhile p).head?, p c = false := by
  intro c hc
  have h := List.head?_dropWhile_not p x
  rw [Option.mem_def.mp hc] at h
  simpa using h

theorem loadForm?_eq_some_iff : loadForm? t = some f ↔ IsLoad f ∧ f.written <+: t := by
  constructor
  · intro h
    unfold loadForm? at h
    cases ha : Text.after? loadOpening t with
    | none => simp [ha] at h
    | some inner =>
      have ht := Text.after?_eq_some_iff.mp ha
      simp only [ha] at h
      split at h
      · next rest hd =>
        split at h
        · exact absurd h (by simp)
        · next hp =>
          obtain rfl := Option.some.inj h
          have hi : inner = inner.takeWhile inPayload ++ ')' :: rest := by
            rw [← hd, List.takeWhile_append_dropWhile]
          refine ⟨⟨by simpa using hp, fun c hc => ?_, by simp⟩, rest, ?_⟩
          · exact List.all_eq_true.mp List.all_takeWhile c hc
          · rw [ht]
            conv => rhs; rw [hi]
            simp
      · exact absurd h (by simp)
  · intro h
    obtain ⟨⟨hn, hc, hw⟩, r, rfl⟩ := h
    have ha : Text.after? loadOpening (f.written ++ r) = some (f.payload ++ ')' :: r) := by
      simp [hw, Text.after?_append]
    have hr : ∀ c ∈ (')' :: r).head?, inPayload c = false := by simp [inPayload]
    unfold loadForm?
    simp only [ha, takeWhile_of_head hc hr, dropWhile_of_head hc hr]
    cases f
    simp_all

theorem noCacheForm?_eq_some_iff : noCacheForm? t = some f ↔
    IsCache f ∧ ∃ r, t = f.written ++ r ∧ ∀ c ∈ r.head?, inLine c = false := by
  constructor
  · intro h
    unfold noCacheForm? at h
    split at h
    · next next ha =>
      obtain rfl := Option.some.inj h
      refine ⟨⟨fun c hc => List.all_eq_true.mp List.all_takeWhile c hc, Or.inl rfl⟩,
        next.dropWhile inLine, ?_, head?_dropWhile_not⟩
      simp [Text.after?_eq_some_iff.mp ha]
    · next next ha =>
      obtain rfl := Option.some.inj h
      refine ⟨⟨fun c hc => List.all_eq_true.mp List.all_takeWhile c hc, Or.inr rfl⟩,
        next.dropWhile inLine, ?_, head?_dropWhile_not⟩
      simp [Text.after?_eq_some_iff.mp ha]
    · exact absurd h (by simp)
  · intro h
    obtain ⟨⟨hl, hw⟩, r, rfl, hr⟩ := h
    unfold noCacheForm?
    cases hw with
    | inl hw =>
      have ha : Text.after? bareNoCache (f.written ++ r) = some ('\n' :: (f.payload ++ r)) := by
        simp [hw, Text.after?_append]
      simp only [ha, takeWhile_of_head hl hr]
      cases f
      simp_all
    | inr hw =>
      have ha : Text.after? bareNoCache (f.written ++ r) =
          some ('\r' :: '\n' :: (f.payload ++ r)) :=
        Text.after?_eq_some_iff.mpr (by simp [hw])
      simp only [ha, takeWhile_of_head hl hr]
      cases f
      simp_all

theorem isSome_noCacheForm?_iff : (noCacheForm? t).isSome ↔
    bareNoCache ++ ['\n'] <+: t ∨ bareNoCache ++ ['\r', '\n'] <+: t := by
  constructor
  · intro h
    obtain ⟨f, hf⟩ := Option.isSome_iff_exists.mp h
    obtain ⟨⟨-, hw⟩, r, rfl, -⟩ := noCacheForm?_eq_some_iff.mp hf
    cases hw with
    | inl hw => exact Or.inl ⟨f.payload ++ r, by simp [hw]⟩
    | inr hw => exact Or.inr ⟨f.payload ++ r, by simp [hw]⟩
  · intro h
    obtain ⟨r, rfl⟩ | ⟨r, rfl⟩ := h
    · rw [List.append_assoc, noCacheForm?, Text.after?_append]
      rfl
    · rw [List.append_assoc, noCacheForm?, Text.after?_append]
      rfl

theorem exists_of_form? {m : Marker} (h : m.form? t = some f) :
    f.written ≠ [] ∧ ∃ r, t = f.written ++ r := by
  cases m with
  | load =>
    obtain ⟨hf, r, hr⟩ := loadForm?_eq_some_iff.mp h
    exact ⟨by simp [hf.written, loadOpening], r, hr.symm⟩
  | noCache =>
    obtain ⟨hf, r, hr, -⟩ := noCacheForm?_eq_some_iff.mp h
    refine ⟨?_, r, hr⟩
    cases hf.written with
    | inl hw => simp [hw, bareNoCache]
    | inr hw => simp [hw, bareNoCache]

theorem exists_shorter_of_form? {m : Marker} (h : m.form? t = some f) :
    ∃ r, t = f.written ++ r ∧ r.length < t.length := by
  obtain ⟨hw, r, rfl⟩ := exists_of_form? h
  have hp := List.length_pos_iff.mpr hw
  refine ⟨r, rfl, ?_⟩
  rw [List.length_append]
  omega

end SourceMarks.Marker
