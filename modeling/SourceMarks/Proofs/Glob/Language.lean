import SourceMarks.Glob.Pattern
import SourceMarks.Proofs.Outcome
import SourceMarks.Proofs.Text.Bytes
import Mathlib.Data.List.Basic

/-!
What expressions match. The rests of a match are what its matched beginnings leave, and each token
of a pattern takes bytes of a shape of its own.
-/
namespace SourceMarks.Glob
variable {e a b : Expression} {es : List Expression} {ok : UInt8 → Bool} {r s w : List UInt8}
  {c : Char} {t : Text} {token : Token} {tokens : List Token}

namespace Expression

/-- The bytes that an expression takes as a whole. -/
def Takes : Expression → List UInt8 → Prop
  | empty, w => w = []
  | byte ok, w => ∃ b, ok b = true ∧ w = [b]
  | run ok, w => ∀ b ∈ w, ok b = true
  | seq a b, w => ∃ u v, w = u ++ v ∧ a.Takes u ∧ b.Takes v
  | alt a b, w => a.Takes w ∨ b.Takes w

theorem mem_runRests : r ∈ runRests ok s ↔ ∃ w, s = w ++ r ∧ ∀ b ∈ w, ok b = true := by
  induction s with
  | nil =>
    rw [runRests, List.mem_singleton]
    constructor
    · rintro rfl
      exact ⟨[], rfl, by simp⟩
    · rintro ⟨w, hw, -⟩
      exact (List.append_eq_nil_iff.mp hw.symm).2
  | cons x s ih =>
    have hsplit : (∃ w, x :: s = w ++ r ∧ ∀ b ∈ w, ok b = true) ↔
        r = x :: s ∨ ok x = true ∧ ∃ w, s = w ++ r ∧ ∀ b ∈ w, ok b = true := by
      constructor
      · rintro ⟨w, hw, hok⟩
        cases w with
        | nil => exact Or.inl hw.symm
        | cons y w =>
          cases hw
          rw [List.forall_mem_cons] at hok
          exact Or.inr ⟨hok.1, w, rfl, hok.2⟩
      · rintro (rfl | ⟨hx, w, rfl, hok⟩)
        · exact ⟨[], rfl, by simp⟩
        · exact ⟨x :: w, rfl, List.forall_mem_cons.mpr ⟨hx, hok⟩⟩
    rw [hsplit, runRests, List.mem_cons]
    by_cases hx : ok x = true
    · simp [hx, ih]
    · simp [hx]

theorem mem_rests : r ∈ e.rests s ↔ ∃ w, s = w ++ r ∧ e.Takes w := by
  induction e generalizing r s with
  | empty => simp [rests, Takes, eq_comm]
  | byte ok =>
    cases s with
    | nil => simp [rests, Takes]
    | cons x s =>
      rw [rests]
      constructor
      · intro h
        split at h
        · next hx => exact ⟨[x], by simp_all, x, hx, rfl⟩
        · cases h
      · rintro ⟨w, hw, y, hy, rfl⟩
        cases hw
        simp [hy]
  | run ok => exact mem_runRests
  | seq a b iha ihb =>
    simp only [rests, List.mem_eraseDups, List.mem_flatMap, iha, ihb, Takes]
    constructor
    · rintro ⟨m, ⟨u, rfl, hu⟩, v, rfl, hv⟩
      exact ⟨u ++ v, by simp, u, v, rfl, hu, hv⟩
    · rintro ⟨w, rfl, u, v, rfl, hu, hv⟩
      exact ⟨v ++ r, ⟨u, by simp, hu⟩, v, rfl, hv⟩
  | alt a b iha ihb =>
    simp only [rests, List.mem_eraseDups, List.mem_append, iha, ihb, Takes]
    constructor
    · rintro (⟨w, rfl, hw⟩ | ⟨w, rfl, hw⟩)
      · exact ⟨w, rfl, Or.inl hw⟩
      · exact ⟨w, rfl, Or.inr hw⟩
    · rintro ⟨w, rfl, hw | hw⟩
      · exact Or.inl ⟨w, rfl, hw⟩
      · exact Or.inr ⟨w, rfl, hw⟩

theorem accepts_iff : e.accepts s = true ↔ e.Takes s := by
  rw [accepts, List.contains_iff_mem, mem_rests]
  simp

theorem takes_andThen : (a.andThen b).Takes s ↔ ∃ u v, s = u ++ v ∧ a.Takes u ∧ b.Takes v := by
  have hempty : ∀ {e : Expression}, e.isEmpty = true → e = .empty := by
    intro e he
    cases e <;> first | rfl | cases he
  rw [andThen]
  split
  · next ha => simp [hempty ha, Takes]
  · split
    · next hb => simp [hempty hb, Takes]
    · rfl

/-- The bytes that expressions take one after the other. -/
def TakeAll : List Expression → List UInt8 → Prop
  | [], w => w = []
  | e :: es, w => ∃ u v, w = u ++ v ∧ e.Takes u ∧ TakeAll es v

theorem takes_foldl_andThen : (es.foldl andThen a).Takes s ↔
    ∃ u v, s = u ++ v ∧ a.Takes u ∧ TakeAll es v := by
  induction es generalizing a s with
  | nil => simp [TakeAll]
  | cons e es ih =>
    rw [List.foldl_cons, ih]
    simp only [takes_andThen, TakeAll]
    constructor
    · rintro ⟨_, v, rfl, ⟨x, y, rfl, hx, hy⟩, hv⟩
      exact ⟨x, y ++ v, by simp, hx, y, v, rfl, hy, hv⟩
    · rintro ⟨x, _, rfl, hx, y, v, rfl, hy, hv⟩
      exact ⟨x ++ y, v, by simp, ⟨x, y, rfl, hx, hy⟩, hv⟩

theorem takes_sequence : (sequence es).Takes s ↔ TakeAll es s := by
  rw [sequence, takes_foldl_andThen]
  simp [Takes]

theorem takeAll_bytes : TakeAll (r.map fun b => byte (· == b)) s ↔ s = r := by
  induction r generalizing s with
  | nil => rfl
  | cons b r ih =>
    rw [List.map_cons, TakeAll]
    simp only [ih, Takes, beq_iff_eq]
    constructor
    · rintro ⟨_, _, rfl, ⟨_, rfl, rfl⟩, rfl⟩
      rfl
    · rintro rfl
      exact ⟨[b], r, rfl, ⟨b, rfl, rfl⟩, rfl⟩

theorem takes_anyOf (h : (anyOf es).Takes s) : s = [] ∨ ∃ e ∈ es, e.Takes s := by
  induction es using anyOf.induct with
  | case1 => exact Or.inl h
  | case2 e => exact Or.inr ⟨e, List.mem_singleton_self e, h⟩
  | case3 e next others ih =>
    rw [anyOf] at h
    obtain h | h := h
    · exact Or.inr ⟨e, List.mem_cons_self, h⟩
    · obtain h | ⟨e', he', h⟩ := ih h
      · exact Or.inl h
      · exact Or.inr ⟨e', List.mem_cons_of_mem e he', h⟩

end Expression

section Tokens

theorem takes_literal : (Token.literal c).expression.Takes w ↔ w = String.utf8EncodeChar c := by
  have hb : Text.bytes [c] = String.utf8EncodeChar c := List.append_nil _
  rw [Token.expression, Expression.literal, Expression.takes_sequence, Expression.takeAll_bytes, hb]

theorem inSegment_iff {b : UInt8} : inSegment b = true ↔ b ≠ 47 := bne_iff_ne

theorem takes_any : Token.any.expression.Takes w ↔ ∃ b, b ≠ 47 ∧ w = [b] := by
  simp only [Token.expression, Expression.Takes, inSegment_iff]

theorem takes_star : Token.star.expression.Takes w ↔ 47 ∉ w := by
  simp only [Token.expression, Expression.Takes, inSegment_iff]
  exact ⟨fun h hm => h 47 hm rfl, fun h b hb he => h (he ▸ hb)⟩

theorem takes_slash : slash.Takes w ↔ w = [47] := by
  simp [slash, Expression.Takes]

theorem takes_anyByte (w : List UInt8) : (Expression.run anyByte).Takes w := fun _ _ => rfl

theorem takes_leading : Token.leading.expression.Takes w ↔ w = [] ∨ ∃ x, w = x ++ [47] := by
  change (slash.Takes w ∨ w = []) ∨ (∃ u v, w = u ++ v ∧ _ ∧ slash.Takes v) ↔ _
  simp only [takes_slash, takes_anyByte, true_and]
  constructor
  · rintro ((rfl | rfl) | ⟨x, _, rfl, rfl⟩)
    · exact Or.inr ⟨[], rfl⟩
    · exact Or.inl rfl
    · exact Or.inr ⟨x, rfl⟩
  · rintro (rfl | ⟨x, rfl⟩)
    · exact Or.inl (Or.inr rfl)
    · exact Or.inr ⟨x, [47], rfl, rfl⟩

theorem takes_between :
    Token.between.expression.Takes w ↔ w = [47] ∨ ∃ x, w = 47 :: (x ++ [47]) := by
  change slash.Takes w ∨
      (∃ u v, w = u ++ v ∧ slash.Takes u ∧ ∃ x y, v = x ++ y ∧ _ ∧ slash.Takes y) ↔ _
  simp only [takes_slash, takes_anyByte, true_and]
  constructor
  · rintro (rfl | ⟨_, _, rfl, rfl, x, _, rfl, rfl⟩)
    · exact Or.inl rfl
    · exact Or.inr ⟨x, rfl⟩
  · rintro (rfl | ⟨x, rfl⟩)
    · exact Or.inl rfl
    · exact Or.inr ⟨[47], x ++ [47], rfl, rfl, x, [47], rfl, rfl⟩

theorem takes_trailing : Token.trailing.expression.Takes w ↔ ∃ x, w = 47 :: x := by
  change (∃ u v, w = u ++ v ∧ slash.Takes u ∧ _) ↔ _
  simp only [takes_slash, takes_anyByte, and_true]
  constructor
  · rintro ⟨_, x, rfl, rfl⟩
    exact ⟨x, rfl⟩
  · rintro ⟨x, rfl⟩
    exact ⟨[47], x, rfl, rfl⟩

/-- What the tokens of a pattern take one after the other. -/
def TokensTake (tokens : List Token) (w : List UInt8) : Prop :=
  Expression.TakeAll (tokens.map Token.expression) w

theorem tokensTake_nil : TokensTake [] w ↔ w = [] := Iff.rfl

theorem tokensTake_cons : TokensTake (token :: tokens) w ↔
    ∃ u v, w = u ++ v ∧ token.expression.Takes u ∧ TokensTake tokens v := Iff.rfl

theorem tokensTake_append {more : List Token} : TokensTake (tokens ++ more) w ↔
    ∃ u v, w = u ++ v ∧ TokensTake tokens u ∧ TokensTake more v := by
  induction tokens generalizing w with
  | nil => simp [tokensTake_nil]
  | cons token tokens ih =>
    simp only [List.cons_append, tokensTake_cons, ih]
    constructor
    · rintro ⟨x, _, rfl, hx, y, z, rfl, hy, hz⟩
      exact ⟨x ++ y, z, by simp, ⟨x, y, rfl, hx, hy⟩, hz⟩
    · rintro ⟨_, z, rfl, ⟨x, y, rfl, hx, hy⟩, hz⟩
      exact ⟨x, y ++ z, by simp, hx, y, z, rfl, hy, hz⟩

theorem tokensTake_literals : TokensTake (t.map .literal) w ↔ w = t.bytes := by
  induction t generalizing w with
  | nil => rfl
  | cons c t ih =>
    rw [List.map_cons, tokensTake_cons, Text.bytes_cons]
    simp [ih, takes_literal]

/-- A branch, given from the end, takes what its tokens do. -/
theorem takes_expressionOf {branch : List Token} :
    (Draft.expressionOf branch).Takes w ↔ TokensTake branch.reverse w := by
  rw [Draft.expressionOf, Expression.takes_sequence, TokensTake]

theorem matches_expressionOf (tokens : List Token) :
    (Draft.expressionOf tokens.reverse).matches t = true ↔ TokensTake tokens t.bytes := by
  rw [Expression.matches, Expression.accepts_iff, takes_expressionOf, List.reverse_reverse]

end Tokens

end SourceMarks.Glob
