import SourceMarks.Marker.Occurrence
import SourceMarks.Fault
import SourceMarks.Proofs.Marker.Pieces
import SourceMarks.Proofs.Outcome
import SourceMarks.Proofs.Text.Position

/-!
Replacing the forms of a marker. Main statement: the new texts are computed for the occurrences of
the text in order, and then stand in the place of their spans.
-/
namespace SourceMarks
variable {m : Marker}

def weave : List Text → List Piece → Text
  | _, [] => []
  | news, .plain c :: ps => c :: weave news ps
  | [], .form _ :: ps => weave [] ps
  | new :: news, .form _ :: ps => new ++ weave news ps

/-- Pieces with a new text for each payload. -/
def fill (new : Text → Text) (ps : List Piece) : Text :=
  ps.flatMap fun
    | .plain c => [c]
    | .form f => new f.payload

/-- A text with new texts in the place of spans. The text begins at an offset of a longer one, in
which the spans are counted. -/
def splice : (offset : Nat) → Text → List (Occurrence × Text) → Text
  | _, t, [] => t
  | offset, t, (o, new) :: rest =>
    t.upTo (o.start - offset) ++ new ++ splice o.stop (t.behind (o.stop - offset)) rest

theorem fill_plain (new : Text → Text) (c : Char) (ps : List Piece) :
    fill new (.plain c :: ps) = c :: fill new ps := rfl

theorem fill_form (new : Text → Text) (f : Form) (ps : List Piece) :
    fill new (.form f :: ps) = new f.payload ++ fill new ps := rfl

theorem fill_append (new : Text → Text) (ps qs : List Piece) :
    fill new (ps ++ qs) = fill new ps ++ fill new qs := List.flatMap_append

theorem fill_map_plain (new : Text → Text) (x : Text) : fill new (x.map .plain) = x := by
  induction x with
  | nil => rfl
  | cons c x ih => rw [List.map_cons, fill_plain, ih]

theorem weave_map_payloads (new : Text → Text) (ps : List Piece) :
    weave ((ps.filterMap Piece.payload?).map new) ps = fill new ps := by
  induction ps with
  | nil => rfl
  | cons p ps ih =>
    cases p with
    | plain c => exact congrArg (List.cons c) ih
    | form f => exact congrArg (new f.payload ++ ·) ih

theorem fill_of_no_payload (new : Text → Text) {ps : List Piece}
    (h : ps.filterMap Piece.payload? = []) : fill new ps = written ps := by
  induction ps with
  | nil => rfl
  | cons p ps ih =>
    cases p with
    | plain c => rw [fill_plain, written_plain, ih h]
    | form f => simp [Piece.payload?] at h

namespace Marker

theorem map_payload_occurrencesFrom (offset line : Nat) (ps : List Piece) :
    (m.occurrencesFrom offset line ps).map Occurrence.payload = ps.filterMap Piece.payload? := by
  induction ps generalizing offset line with
  | nil => rfl
  | cons p ps ih =>
    cases p with
    | plain c => exact ih _ _
    | form f => exact congrArg (List.cons f.payload) (ih _ _)

theorem map_payload_scan (m : Marker) (t : Text) :
    (m.scan t).map Occurrence.payload = m.payloads t :=
  map_payload_occurrencesFrom 0 1 (m.pieces t)

theorem payload_mem_payloads {t : Text} {o : Occurrence} (h : o ∈ m.scan t) :
    o.payload ∈ m.payloads t :=
  map_payload_scan m t ▸ List.mem_map_of_mem h

theorem occurrencesFrom_append (offset line : Nat) (ps qs : List Piece) :
    m.occurrencesFrom offset line (ps ++ qs) = m.occurrencesFrom offset line ps ++
      m.occurrencesFrom (offset + (written ps).byteLength)
        (line + (written ps).count '\n') qs := by
  induction ps generalizing offset line with
  | nil => rfl
  | cons p ps ih =>
    cases p with
    | plain c =>
      simp only [List.cons_append, occurrencesFrom, ih, written_plain, Text.byteLength,
        List.count_cons, beq_iff_eq]
      split <;> simp only [Nat.add_assoc, Nat.add_comm, Nat.zero_add]
    | form f =>
      simp only [List.cons_append, occurrencesFrom, ih, written_form, Text.byteLength_append,
        List.count_append, Nat.add_assoc]

theorem exists_occurrence {t : Text} {f : Form} {ps qs : List Piece}
    (h : m.pieces t = ps ++ .form f :: qs) :
    ∃ o ∈ m.scan t, o.payload = f.payload ∧ t.upTo o.start = written ps := by
  have ht : t = written ps ++ written (.form f :: qs) := by
    rw [← written_append, ← h, written_pieces]
  refine ⟨m.occurrence f (written ps).byteLength
    (1 + (written ps).count '\n'), ?_, rfl, ?_⟩
  · rw [scan, h, occurrencesFrom_append, Nat.zero_add]
    exact List.mem_append_right _ List.mem_cons_self
  · conv => lhs; rw [ht]
    exact Text.upTo_byteLength _ _

section Monadic
variable {μ : Type → Type} [Monad μ] [LawfulMonad μ]

theorem replaceFrom_eq_weave (new : Occurrence → μ Text) (offset line : Nat) (ps : List Piece) :
    m.replaceFrom new offset line ps =
      (weave · ps) <$> (m.occurrencesFrom offset line ps).mapM new := by
  induction ps generalizing offset line with
  | nil => simp [replaceFrom, occurrencesFrom, weave]
  | cons p ps ih =>
    cases p with
    | plain c => simp [replaceFrom, occurrencesFrom, weave, ih]
    | form f => simp [replaceFrom, occurrencesFrom, weave, ih]

theorem replace_eq_weave (t : Text) (new : Occurrence → μ Text) :
    m.replace t new = (weave · (m.pieces t)) <$> (m.scan t).mapM new :=
  replaceFrom_eq_weave new 0 1 (m.pieces t)

end Monadic

section Payloads
variable {g : Text → Except Fault Text} {t out : Text}

theorem replace_payloads (t : Text) (g : Text → Except Fault Text) :
    m.replace t (fun o => g o.payload) = (weave · (m.pieces t)) <$> (m.payloads t).mapM g := by
  rw [replace_eq_weave, ← map_payload_scan, List.mapM_map]
  rfl

theorem replace_congr {g' : Text → Except Fault Text} (h : ∀ p ∈ m.payloads t, g p = g' p) :
    m.replace t (fun o => g o.payload) = m.replace t (fun o => g' o.payload) := by
  rw [replace_payloads, replace_payloads, mapM_congr h]

theorem replace_eq_ok_iff : m.replace t (fun o => g o.payload) = .ok out ↔
    ∃ new : Text → Text, (∀ p ∈ m.payloads t, g p = .ok (new p)) ∧
      out = fill new (m.pieces t) := by
  rw [replace_payloads, map_eq_ok_iff]
  constructor
  · intro h
    obtain ⟨news, h, rfl⟩ := h
    obtain ⟨new, hn, rfl⟩ := mapM_eq_ok_iff.mp h
    exact ⟨new, hn, weave_map_payloads new _⟩
  · intro h
    obtain ⟨new, hn, rfl⟩ := h
    exact ⟨_, mapM_eq_ok_iff.mpr ⟨new, hn, rfl⟩, weave_map_payloads new _⟩

theorem replace_eq_error {e : Fault} (h : m.replace t (fun o => g o.payload) = .error e) :
    ∃ p ∈ m.payloads t, g p = .error e := by
  rw [replace_payloads, map_eq_error_iff] at h
  obtain ⟨before, p, after, hp, -, he⟩ := firstFault_of_mapM_eq_error h
  exact ⟨p, by simp [hp], he⟩

end Payloads

theorem start_of_mem_occurrencesFrom {offset line : Nat} {ps : List Piece} {o : Occurrence}
    (h : o ∈ m.occurrencesFrom offset line ps) : offset ≤ o.start ∧ o.start ≤ o.stop := by
  induction ps generalizing offset line with
  | nil => simp [occurrencesFrom] at h
  | cons p ps ih =>
    cases p with
    | plain c =>
      have hi := ih h
      omega
    | form f =>
      obtain rfl | h := List.mem_cons.mp h
      · exact ⟨Nat.le_refl _, Nat.le_add_right _ _⟩
      · have hi := ih h
        omega

theorem splice_cons {c : Char} {offset : Nat} {t : Text} {spans : List (Occurrence × Text)}
    (h : ∀ s ∈ spans.head?, offset + c.utf8Size ≤ s.1.start ∧ s.1.start ≤ s.1.stop) :
    splice offset (c :: t) spans = c :: splice (offset + c.utf8Size) t spans := by
  cases spans with
  | nil => rfl
  | cons s spans =>
    obtain ⟨o, new⟩ := s
    obtain ⟨hs, ht⟩ := h (o, new) rfl
    simp only at hs ht
    rw [splice, splice, Text.upTo_cons t (by omega), Text.behind_cons t (by omega)]
    simp only [Nat.sub_sub, List.cons_append]

theorem weave_eq_splice (offset line : Nat) (ps : List Piece) (news : List Text)
    (h : news.length = (m.occurrencesFrom offset line ps).length) :
    weave news ps = splice offset (written ps)
      ((m.occurrencesFrom offset line ps).zip news) := by
  induction ps generalizing offset line news with
  | nil => rfl
  | cons p ps ih =>
    cases p with
    | plain c =>
      rw [weave, written_plain, occurrencesFrom, splice_cons, ← ih _ _ news h]
      intro s hs
      have hm := List.of_mem_zip (List.mem_of_mem_head? hs)
      exact start_of_mem_occurrencesFrom hm.1
    | form f =>
      cases news with
      | nil => simp [occurrencesFrom] at h
      | cons new news =>
        have hl : news.length = (m.occurrencesFrom (offset + f.written.byteLength)
            (line + f.written.count '\n') ps).length := by
          simpa [occurrencesFrom] using h
        simp only [weave, written_form, occurrencesFrom, List.zip_cons_cons, splice, occurrence,
          Nat.sub_self, Text.upTo_zero, List.nil_append, Nat.add_sub_cancel_left,
          Text.behind_byteLength, ih _ _ news hl]

theorem weave_pieces_eq_splice {t : Text} {news : List Text}
    (h : news.length = (m.scan t).length) :
    weave news (m.pieces t) = splice 0 t ((m.scan t).zip news) := by
  rw [weave_eq_splice 0 1 (m.pieces t) news h, written_pieces]
  rfl

end Marker
end SourceMarks
