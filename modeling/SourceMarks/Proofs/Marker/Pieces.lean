import SourceMarks.Proofs.Marker.Form

/-! The pieces of a text: they add up to it, and are found piece by piece. -/
namespace SourceMarks
open Marker
variable {m : Marker} {f : Form} {r : Text}

def Piece.written : Piece → Text
  | .plain c => [c]
  | .form f => f.written

def written (ps : List Piece) : Text := ps.flatMap Piece.written

theorem written_plain (c : Char) (ps : List Piece) :
    written (.plain c :: ps) = c :: written ps := rfl

theorem written_form (f : Form) (ps : List Piece) :
    written (.form f :: ps) = f.written ++ written ps := rfl

theorem written_append (ps qs : List Piece) : written (ps ++ qs) = written ps ++ written qs :=
  List.flatMap_append

theorem written_map_plain (x : Text) : written (x.map .plain) = x := by
  rw [written, List.flatMap_map]
  exact List.flatMap_singleton' x

def Piece.payload? : Piece → Option Text
  | .plain _ => none
  | .form f => some f.payload

theorem filterMap_map_plain (x : Text) : (x.map .plain).filterMap Piece.payload? = [] := by
  rw [List.filterMap_map]
  exact List.filterMap_eq_nil_iff.mpr fun c _ => rfl

namespace Marker

def payloads (m : Marker) (t : Text) : List Text := (m.pieces t).filterMap Piece.payload?

theorem pieces_nil (m : Marker) : m.pieces [] = [] := by
  rw [pieces]

theorem pieces_plain {c : Char} (h : m.form? (c :: r) = none) :
    m.pieces (c :: r) = .plain c :: m.pieces r := by
  rw [pieces, h]

theorem pieces_form (h : m.form? (f.written ++ r) = some f) :
    m.pieces (f.written ++ r) = .form f :: m.pieces r := by
  have hn := (exists_of_form? h).1
  cases hw : f.written with
  | nil => exact absurd hw hn
  | cons c w =>
    rw [hw, List.cons_append] at h
    rw [List.cons_append, pieces, h]
    simp [hw]

theorem payloads_plain {c : Char} (h : m.form? (c :: r) = none) :
    m.payloads (c :: r) = m.payloads r := by
  rw [payloads, pieces_plain h]
  rfl

theorem payloads_form (h : m.form? (f.written ++ r) = some f) :
    m.payloads (f.written ++ r) = f.payload :: m.payloads r := by
  rw [payloads, pieces_form h]
  rfl

theorem piece_induction (m : Marker) {motive : Text → Prop} (nil : motive [])
    (plain : ∀ c r, m.form? (c :: r) = none → motive r → motive (c :: r))
    (form : ∀ f r, m.form? (f.written ++ r) = some f → motive r → motive (f.written ++ r))
    (t : Text) : motive t := by
  induction hn : t.length using Nat.strongRecOn generalizing t with
  | ind n ih =>
    subst hn
    cases t with
    | nil => exact nil
    | cons c r =>
      cases h : m.form? (c :: r) with
      | none => exact plain c r h (ih r.length (Nat.lt_succ_self r.length) r rfl)
      | some f =>
        obtain ⟨s, hs, hl⟩ := exists_shorter_of_form? h
        rw [hs] at h ⊢
        exact form f s h (ih s.length hl s rfl)

theorem written_pieces (m : Marker) (t : Text) : written (m.pieces t) = t := by
  induction t using piece_induction (m := m) with
  | nil => rw [pieces_nil]; rfl
  | plain c r h ih => rw [pieces_plain h, written_plain, ih]
  | form f r h ih => rw [pieces_form h, written_form, ih]

/-- No form of the marker begins inside `x` where `r` follows. -/
def Clear (m : Marker) (x r : Text) : Prop := ∀ y, y ≠ [] → y <:+ x → m.form? (y ++ r) = none

theorem Clear.of_cons {c : Char} {x : Text} (h : m.Clear (c :: x) r) : m.Clear x r :=
  fun y hn hy => h y hn (hy.trans (List.suffix_cons c x))

theorem clear_cons_iff {c : Char} {x : Text} :
    m.Clear (c :: x) r ↔ m.form? (c :: (x ++ r)) = none ∧ m.Clear x r := by
  constructor
  · intro h
    exact ⟨h (c :: x) (List.cons_ne_nil c x) List.suffix_rfl, h.of_cons⟩
  · intro h y hn hy
    cases List.suffix_cons_iff.mp hy with
    | inl he => exact he ▸ h.1
    | inr hy => exact h.2 y hn hy

theorem pieces_append_of_clear {x : Text} (h : m.Clear x r) :
    m.pieces (x ++ r) = x.map .plain ++ m.pieces r := by
  induction x with
  | nil => rfl
  | cons c x ih =>
    obtain ⟨hc, h⟩ := clear_cons_iff.mp h
    rw [List.cons_append, pieces_plain hc, ih h]
    rfl

end Marker
end SourceMarks
