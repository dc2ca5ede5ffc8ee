import SourceMarks.Proofs.Marker.Replacement

/-!
Replacing with a source of new texts that may fail and that keeps a state. Main statement: it is
called on the occurrences in order, up to its first fault. Without a fault the new texts stand in
the place of the spans, and else that fault is the result.
-/
namespace SourceMarks

/-- The text of the span of an occurrence. -/
def spanned (t : Text) (o : Occurrence) : Text := (t.behind o.start).upTo (o.stop - o.start)

def Piece.form? : Piece → Option Form
  | .plain _ => none
  | .form f => some f

theorem weave_written (ps : List Piece) :
    weave ((ps.filterMap Piece.form?).map Form.written) ps = written ps := by
  induction ps with
  | nil => rfl
  | cons p ps ih =>
    cases p with
    | plain c => exact congrArg (List.cons c) ih
    | form f => exact congrArg (f.written ++ ·) ih

namespace Marker
variable {σ : Type} {m : Marker} {text : Text} {s s' : σ} {os before : List Occurrence}
  {news : List Text}
  {o : Occurrence} {e : Fault}

/-- A source of new texts. It may fail, and it keeps a state, also when it fails. -/
abbrev Callback (σ : Type) := Occurrence → ExceptT Fault (StateM σ) Text

/-- What comes of a run from a state on: a result or a fault, and the state behind it. -/
def outcome {α : Type} (x : ExceptT Fault (StateM σ) α) (s : σ) : Except Fault α × σ :=
  (x.run.run s).run

/-- Calls in order that all succeed: the state before them, their new texts, and the state behind
them. -/
inductive Answers (f : Callback σ) : σ → List Occurrence → List Text → σ → Prop
  | nil {s : σ} : Answers f s [] [] s
  | cons {s s' s'' : σ} {o : Occurrence} {os : List Occurrence} {new : Text} {news : List Text} :
    outcome (f o) s = (.ok new, s') → Answers f s' os news s'' →
      Answers f s (o :: os) (new :: news) s''

/-- Calls in order of which the first to fail is the one behind `before`, on `o`. -/
def FailsAt (f : Callback σ) (s : σ) (os before : List Occurrence) (o : Occurrence) (e : Fault)
    (s' : σ) : Prop :=
  ∃ after news last, os = before ++ o :: after ∧ Answers f s before news last ∧
    outcome (f o) last = (.error e, s')

/-- The same source, with a list of the occurrences on which it was called. -/
def Callback.recorded (f : Callback σ) : Callback (σ × List Occurrence) :=
  fun o => ExceptT.mk fun s =>
  let (answer, last) := outcome (f o) s.1
  (answer, (last, s.2 ++ [o]))

/-- The occurrences on which a replacement calls its source. -/
def calls (m : Marker) (text : Text) (f : Callback σ) (s : σ) : List Occurrence :=
  (outcome (m.replace text f.recorded) (s, [])).2.2

section Runs
variable {α β : Type} {x : ExceptT Fault (StateM σ) α} {f : Callback σ}

theorem outcome_bind_ok {g : α → ExceptT Fault (StateM σ) β} {a : α}
    (h : outcome x s = (.ok a, s')) :
    outcome (x >>= g) s = outcome (g a) s' := by
  rw [outcome, Id.run] at h
  rw [outcome, ExceptT.run_bind, StateT.run_bind, h]
  rfl

theorem outcome_bind_error {g : α → ExceptT Fault (StateM σ) β} (h : outcome x s = (.error e, s')) :
    outcome (x >>= g) s = (.error e, s') := by
  rw [outcome, Id.run] at h
  rw [outcome, ExceptT.run_bind, StateT.run_bind, h]
  rfl

theorem answers_or_failsAt (f : Callback σ) (s : σ) (os : List Occurrence) :
    (∃ news s', Answers f s os news s') ∨ ∃ before o e s', FailsAt f s os before o e s' := by
  induction os generalizing s with
  | nil => exact Or.inl ⟨[], s, .nil⟩
  | cons o os ih =>
    rcases hf : outcome (f o) s with ⟨answer, next⟩
    cases answer with
    | error e => exact Or.inr ⟨[], o, e, next, os, [], s, rfl, .nil, hf⟩
    | ok new =>
      cases ih next with
      | inl h =>
        obtain ⟨news, s', h⟩ := h
        exact Or.inl ⟨new :: news, s', .cons hf h⟩
      | inr h =>
        obtain ⟨before, x, e, s', after, news, last, rfl, h, hx⟩ := h
        exact Or.inr ⟨o :: before, x, e, s', after, new :: news, last, rfl, .cons hf h, hx⟩

theorem Answers.length (h : Answers f s os news s') : news.length = os.length := by
  induction h with
  | nil => rfl
  | cons _ _ ih => simp [ih]

theorem Answers.mapM (h : Answers f s os news s') : outcome (os.mapM f) s = (.ok news, s') := by
  induction h with
  | nil => rfl
  | cons hf _ ih =>
    rw [List.mapM_cons, outcome_bind_ok hf, outcome_bind_ok ih]
    rfl

theorem FailsAt.mapM (h : FailsAt f s os before o e s') :
    outcome (os.mapM f) s = (.error e, s') := by
  obtain ⟨after, news, last, rfl, h, he⟩ := h
  induction h with
  | nil => rw [List.nil_append, List.mapM_cons, outcome_bind_error he]
  | cons hf _ ih =>
    rw [List.cons_append, List.mapM_cons, outcome_bind_ok hf, outcome_bind_error (ih he)]

theorem outcome_recorded {answer : Except Fault Text} (h : outcome (f o) s = (answer, s'))
    (log : List Occurrence) : outcome (f.recorded o) (s, log) = (answer, (s', log ++ [o])) := by
  change ((outcome (f o) s).1, ((outcome (f o) s).2, log ++ [o])) = _
  rw [h]

theorem Answers.recorded (h : Answers f s os news s') (log : List Occurrence) :
    Answers f.recorded (s, log) os news (s', log ++ os) := by
  induction h generalizing log with
  | nil => simpa using Answers.nil
  | @cons s s' s'' o os new news hf _ ih =>
    have hos := Answers.cons (outcome_recorded hf log) (ih (log ++ [o]))
    rwa [List.append_assoc, List.singleton_append] at hos

theorem FailsAt.recorded (h : FailsAt f s os before o e s') :
    FailsAt f.recorded (s, []) os before o e (s', before ++ [o]) := by
  obtain ⟨after, news, last, rfl, h, he⟩ := h
  exact ⟨after, news, (last, before), rfl, h.recorded [], outcome_recorded he before⟩

theorem Answers.replace (h : Answers f s (m.scan text) news s') :
    outcome (m.replace text f) s = (.ok (splice 0 text ((m.scan text).zip news)), s') := by
  rw [replace_eq_weave, map_eq_pure_bind, outcome_bind_ok h.mapM, ← weave_pieces_eq_splice h.length]
  rfl

theorem FailsAt.replace (h : FailsAt f s (m.scan text) before o e s') :
    outcome (m.replace text f) s = (.error e, s') := by
  rw [replace_eq_weave, map_eq_pure_bind, outcome_bind_error h.mapM]

end Runs

theorem spanned_occurrence (a b : Text) (f : Form) (line : Nat) :
    spanned (a ++ (f.written ++ b)) (m.occurrence f a.byteLength line) = f.written := by
  rw [spanned, occurrence, Text.behind_byteLength, Nat.add_sub_cancel_left, Text.upTo_byteLength]

theorem map_spanned_occurrencesFrom (a : Text) (line : Nat) (ps : List Piece) :
    (m.occurrencesFrom a.byteLength line ps).map (spanned (a ++ written ps)) =
      (ps.filterMap Piece.form?).map Form.written := by
  induction ps generalizing a line with
  | nil => rfl
  | cons p ps ih =>
    cases p with
    | plain c =>
      have hi := ih (a ++ [c])
      rw [List.append_assoc, List.singleton_append, Text.byteLength_concat] at hi
      exact hi _
    | form f =>
      have hi := ih (a ++ f.written)
      rw [List.append_assoc, Text.byteLength_append] at hi
      exact congrArg₂ List.cons (spanned_occurrence a (written ps) f line) (hi _)

/-- With the texts of the spans themselves a replacement changes nothing. -/
theorem replace_spanned {μ : Type → Type} [Monad μ] [LawfulMonad μ] (m : Marker) (text : Text) :
    m.replace text (fun o => pure (spanned text o)) = (pure text : μ Text) := by
  have hspans :
      (m.scan text).map (spanned text) =
        ((m.pieces text).filterMap Piece.form?).map Form.written := by
    have h := map_spanned_occurrencesFrom (m := m) [] 1 (m.pieces text)
    rwa [List.nil_append, written_pieces] at h
  rw [replace_eq_weave, List.mapM_pure, hspans, map_pure, weave_written, written_pieces]

/-- A source of new texts is called on the occurrences in order. Either all calls succeed, and the
text is kept but for the spans, each of which is replaced by its new text; or there is a first call
that fails, which is the last one, and its fault is the result. The texts of the spans themselves
give back the text. -/
theorem replace_calls (m : Marker) (text : Text) (f : Callback σ) (s : σ) :
    ((∃ news s', Answers f s (m.scan text) news s') ∨
      ∃ before o e s', FailsAt f s (m.scan text) before o e s') ∧
    (∀ news s', Answers f s (m.scan text) news s' →
      outcome (m.replace text f) s = (.ok (splice 0 text ((m.scan text).zip news)), s') ∧
        m.calls text f s = m.scan text) ∧
    (∀ before o e s', FailsAt f s (m.scan text) before o e s' →
      outcome (m.replace text f) s = (.error e, s') ∧ m.calls text f s = before ++ [o]) ∧
    outcome (m.replace text fun o => pure (spanned text o)) s = (.ok text, s) := by
  refine ⟨answers_or_failsAt f s _, fun news s' h => ⟨h.replace, ?_⟩,
    fun before o e s' h => ⟨h.replace, ?_⟩, ?_⟩
  · rw [calls, (h.recorded []).replace]
    rfl
  · rw [calls, h.recorded.replace]
  · rw [replace_spanned]
    rfl

/-- A source that has a new text for the first call only. -/
def once : Callback Bool := fun o => ExceptT.mk fun used =>
  if used then (.error (.duplicateLabel o.payload), used) else (.ok ['x'], true)

/-- The second of three calls fails and is the last one. -/
theorem replace_calls_once :
    let text : Text := "//@Load(a)//@Load(b)\n//@Load(c)"
    let first : Occurrence := ⟨load, ['a'], 0, 10, 1⟩
    let second : Occurrence := ⟨load, ['b'], 10, 20, 1⟩
    FailsAt once false (load.scan text) [first] second (.duplicateLabel ['b']) true ∧
    outcome (load.replace text once) false = (.error (.duplicateLabel ['b']), true) ∧
    load.calls text once false = [first, second] := by
  intro text first second
  have hscan : load.scan text = [first] ++ second :: [⟨load, ['c'], 21, 31, 2⟩] := by decide +kernel
  have hfails : FailsAt once false (load.scan text) [first] second (.duplicateLabel ['b']) true :=
    ⟨_, [['x']], true, hscan, .cons rfl .nil, rfl⟩
  exact ⟨hfails, (replace_calls load text once false).2.2.1 [first] second _ _ hfails⟩

end Marker
end SourceMarks
