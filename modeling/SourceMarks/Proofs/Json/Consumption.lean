import SourceMarks.Json.Reader
import SourceMarks.Proofs.Outcome
import Mathlib.Data.List.TakeWhile

/-!
What a reader takes of a text. A value is a balanced text: strings and brackets are closed in it,
and commas stand in brackets only. What is left behind it is an end of the text.
-/
namespace SourceMarks.Json
variable {α β : Type} {inner : Bool} {c : Char} {t rest w x : Text}

/-- A character that neither separates nor opens or closes anything. -/
def isPlain (c : Char) : Bool := c ∉ [',', '"', '[', '\x7b', ']', '\x7d']

/-- The inside of a string, where quotes and backslashes stand behind backslashes. -/
inductive Inside : Text → Prop
  | nil : Inside []
  | plain {c : Char} {t : Text} : c ≠ '"' → c ≠ '\\' → Inside t → Inside (c :: t)
  | escaped {c : Char} {t : Text} : Inside t → Inside ('\\' :: c :: t)

/-- A text that closes its strings and brackets. Commas outside of them are for inner texts only. -/
inductive Balanced : (inner : Bool) → Text → Prop
  | nil {inner : Bool} : Balanced inner []
  | plain {inner : Bool} {c : Char} {t : Text} :
    isPlain c = true → Balanced inner t → Balanced inner (c :: t)
  | comma {t : Text} : Balanced true t → Balanced true (',' :: t)
  | string {inner : Bool} {s t : Text} :
    Inside s → Balanced inner t → Balanced inner ('"' :: (s ++ '"' :: t))
  | list {inner : Bool} {s t : Text} :
    Balanced true s → Balanced inner t → Balanced inner ('[' :: (s ++ ']' :: t))
  | object {inner : Bool} {s t : Text} :
    Balanced true s → Balanced inner t → Balanced inner ('\x7b' :: (s ++ '\x7d' :: t))

theorem Balanced.append (hw : Balanced inner w) (hx : Balanced inner x) :
    Balanced inner (w ++ x) := by
  induction hw with
  | nil => exact hx
  | plain hc _ ih => exact .plain hc (ih hx)
  | comma _ ih => exact .comma (ih hx)
  | string hs _ ih => simpa using Balanced.string hs (ih hx)
  | list hs _ _ ih => simpa using Balanced.list hs (ih hx)
  | object hs _ _ ih => simpa using Balanced.object hs (ih hx)

/-- A text that is balanced by itself is balanced in brackets. -/
theorem Balanced.mono (h : Balanced inner w) : Balanced true w := by
  induction h with
  | nil => exact .nil
  | plain hc _ ih => exact .plain hc ih
  | comma _ ih => exact .comma ih
  | string hs _ ih => exact .string hs ih
  | list hs _ _ ih => exact .list hs ih
  | object hs _ _ ih => exact .object hs ih

theorem balanced_of_all_plain (h : w.all isPlain = true) : Balanced inner w := by
  induction w with
  | nil => exact .nil
  | cons c w ih =>
    rw [List.all_cons, Bool.and_eq_true] at h
    exact .plain h.1 (ih h.2)

/-- A class with none of the characters that count has plain ones only. -/
theorem isPlain_of_class {q : Char → Bool}
    (hq : [',', '"', '[', '\x7b', ']', '\x7d'].all (fun d => !q d) = true) (h : q c = true) :
    isPlain c = true := by
  refine decide_eq_true fun hm => ?_
  have hd := List.all_eq_true.mp hq c hm
  simp [h] at hd

theorem isPlain_of_isSpace (h : isSpace c = true) : isPlain c = true :=
  isPlain_of_class (by decide) h

theorem isPlain_of_isDigit (h : c.isDigit = true) : isPlain c = true :=
  isPlain_of_class (q := Char.isDigit) (by decide) h

/-- Skipping takes blanks only. -/
theorem skip_eq (t : Text) : ∃ b, t = b ++ skip t ∧ b.all isPlain = true := by
  refine ⟨t.takeWhile isSpace, List.takeWhile_append_dropWhile.symm, ?_⟩
  rw [List.all_eq_true]
  intro c hc
  exact isPlain_of_isSpace (List.all_eq_true.mp List.all_takeWhile c hc)

theorem exists_of_skip (h : skip t = rest) : ∃ b, t = b ++ rest ∧ b.all isPlain = true :=
  h ▸ skip_eq t

/-- On success an outcome leaves what follows a part of the text with some property. -/
def Takes (P : Text → Prop) (t : Text) (r : Except Stop (α × Text)) : Prop :=
  ∀ v rest, r = .ok (v, rest) → ∃ w, t = w ++ rest ∧ P w

section Takes
variable {P Q : Text → Prop} {r : Except Stop (α × Text)}

theorem takes_stop (p : Problem) (rest : Text) : Takes P t (stop p rest : Except Stop (α × Text)) :=
  fun _ _ h => nomatch h

theorem takes_stopAt (p : Problem) (rest : Text) :
    Takes P t (stopAt p rest : Except Stop (α × Text)) :=
  fun _ _ h => nomatch h

theorem takes_stopInCode (code : Text) : Takes P t (stopInCode code : Except Stop (α × Text)) := by
  intro v rest h
  rw [stopInCode] at h
  split at h <;> cases h

theorem takes_ok {v : α} (ht : t = w ++ rest) (hw : P w) : Takes P t (.ok (v, rest)) := by
  intro v' rest' he
  cases he
  exact ⟨w, ht, hw⟩

theorem Takes.behind (h : Takes P rest r) (ht : t = x ++ rest) (hx : ∀ w, P w → Q (x ++ w)) :
    Takes Q t r := by
  intro v rest' hr
  obtain ⟨w, hw, hp⟩ := h v rest' hr
  exact ⟨x ++ w, by rw [ht, hw, List.append_assoc], hx w hp⟩

theorem takes_consTo {c : Char} {r : Except Stop (Text × Text)} (h : Takes P t r) :
    Takes P t (consTo c r) := by
  cases r with
  | error e => exact fun _ _ he => nomatch he
  | ok p =>
    obtain ⟨w, hw, hp⟩ := h p.1 p.2 rfl
    exact takes_ok hw hp

end Takes

section Strings

/-- The rest of a string with its closing quote. -/
def Closes (w : Text) : Prop := ∃ s, w = s ++ ['"'] ∧ Inside s

theorem Closes.behind (h : Closes w) (hx : ∀ s, Inside s → Inside (x ++ s)) : Closes (x ++ w) := by
  obtain ⟨s, rfl, hs⟩ := h
  exact ⟨x ++ s, by simp, hx s hs⟩

theorem ne_of_hexValue? {n : Nat} (h : hexValue? c = some n) : c ≠ '"' ∧ c ≠ '\\' := by
  constructor
  · rintro rfl
    cases h
  · rintro rfl
    cases h

theorem inside_code {a b c d : Char} {n : Nat} (h : hexValue4? a b c d = some n) (s : Text)
    (hs : Inside s) : Inside (['\\', 'u', a, b, c, d] ++ s) := by
  unfold hexValue4? at h
  split at h
  · next ha hb hc hd =>
    have ha := ne_of_hexValue? ha
    have hb := ne_of_hexValue? hb
    have hc := ne_of_hexValue? hc
    have hd := ne_of_hexValue? hd
    exact .escaped (.plain ha.1 ha.2 (.plain hb.1 hb.2 (.plain hc.1 hc.2 (.plain hd.1 hd.2 hs))))
  · cases h

theorem takes_stringBody (t : Text) : Takes Closes t (stringBody t) := by
  fun_induction stringBody t with
  | case2 rest => exact takes_ok (w := ['"']) rfl ⟨[], rfl, .nil⟩
  | case9 a b c d n hn _ _ e f g h rest low hl _ ih =>
    refine takes_consTo (ih.behind (x := ['\\', 'u', a, b, c, d] ++ ['\\', 'u', e, f, g, h]) rfl
      fun w hw => hw.behind fun s hs => ?_)
    rw [List.append_assoc]
    exact inside_code hn _ (inside_code hl s hs)
  | case14 a b c d rest n hn _ _ ih =>
    exact takes_consTo (ih.behind (x := ['\\', 'u', a, b, c, d]) rfl
      fun w hw => hw.behind (inside_code hn))
  | case16 c rest _ _ _ _ ih =>
    exact takes_consTo (ih.behind (x := ['\\', c]) rfl fun w hw => hw.behind fun _ => .escaped)
  | case19 c rest hq hend _ _ hmore _ ih =>
    have hb : c ≠ '\\' := by
      intro hc
      cases rest with
      | nil => exact hend hc rfl
      | cons d rest => exact hmore d rest hc rfl
    exact takes_consTo (ih.behind (x := [c]) rfl fun w hw => hw.behind fun _ => .plain hq hb)
  | case4 | case8 | case11 | case15 => exact takes_stopInCode _
  | _ => first | exact takes_stop _ _ | exact takes_stopAt _ _

end Strings

section Numbers

/-- A text of plain characters. -/
def Plain (w : Text) : Prop := w.all isPlain = true

theorem plain_append : Plain (w ++ x) ↔ Plain w ∧ Plain x := by
  simp only [Plain, List.all_append, Bool.and_eq_true]

theorem plain_digits (t : Text) : Plain (t.takeWhile Char.isDigit) := by
  rw [Plain, List.all_eq_true]
  intro c hc
  exact isPlain_of_isDigit (List.all_eq_true.mp List.all_takeWhile c hc)

theorem plain_of_digitRun {run : Text} (h : digitRun t = (run, rest)) :
    t = run ++ rest ∧ Plain run := by
  cases h
  exact ⟨List.takeWhile_append_dropWhile.symm, plain_digits t⟩

theorem Takes.behind_plain {r : Except Stop (α × Text)} (h : Takes Plain rest r)
    (ht : t = x ++ rest) (hx : Plain x) : Takes Plain t r :=
  h.behind ht fun _ hw => plain_append.mpr ⟨hx, hw⟩

theorem takes_scientific (negative : Bool) (significand : Nat) (exponent : Int)
    (ht : t = w ++ rest) (hw : Plain w) :
    Takes Plain t (scientific negative significand exponent rest) := by
  rw [scientific]
  split
  · exact takes_ok ht hw
  · exact takes_stop _ _

theorem takes_exponentPart (negative : Bool) (significand : Nat) (exponent : Int) (t : Text) :
    Takes Plain t (exponentPart negative significand exponent t) := by
  fun_cases exponentPart negative significand exponent t with
  | case2 down c digits _ run rest hr _ _ hs | case4 down c digits _ run rest hr _ _ _ hs =>
    obtain ⟨hrun, hp⟩ := plain_of_digitRun hr
    have hd : ∃ sign, t = sign ++ c :: digits ∧ Plain sign := by
      split at hs <;> cases hs
      · exact ⟨['+'], rfl, rfl⟩
      · exact ⟨['-'], rfl, rfl⟩
      · exact ⟨[], rfl, rfl⟩
    obtain ⟨sign, ht, hsign⟩ := hd
    rw [hrun, ← List.append_assoc] at ht
    exact takes_scientific _ _ _ ht (plain_append.mpr ⟨hsign, hp⟩)
  | case1 | case3 => exact takes_stop _ _
  | case5 => exact takes_stopAt _ _

theorem takes_fractionPart (negative : Bool) (significand : Nat) (exponent : Int) (t : Text) :
    Takes Plain t (fractionPart negative significand exponent t) := by
  fun_cases fractionPart negative significand exponent t with
  | case1 => exact takes_stop _ _
  | case2 => exact takes_stopAt _ _
  | case3 run _ _ _ _ _ more hr | case4 run _ _ _ _ _ more hr =>
    obtain ⟨ht, hp⟩ := plain_of_digitRun hr
    rw [List.append_cons] at ht
    exact (takes_exponentPart _ _ _ more).behind_plain ht (plain_append.mpr ⟨hp, rfl⟩)
  | case5 run _ _ _ _ _ more _ _ hr =>
    obtain ⟨ht, hp⟩ := plain_of_digitRun hr
    exact takes_scientific _ _ _ ht hp

theorem takes_numberBody (negative : Bool) (t : Text) :
    Takes Plain t (numberBody negative t) := by
  have hrun : ∀ {c t run rest},
      (if c = '0' then (['0'], t) else digitRun (c :: t)) = (run, rest) →
      c :: t = run ++ rest ∧ Plain run := by
    intro c t run rest h
    split at h
    · next hc =>
      cases h
      exact ⟨by rw [hc]; rfl, rfl⟩
    · exact plain_of_digitRun h
  fun_cases numberBody negative t with
  | case1 => exact takes_stop _ _
  | case2 | case6 => exact takes_stopAt _ _
  | case3 c rest _ run _ _ _ more hr =>
    obtain ⟨ht, hp⟩ := hrun hr
    rw [List.append_cons] at ht
    exact (takes_fractionPart _ _ _ more).behind_plain ht (plain_append.mpr ⟨hp, rfl⟩)
  | case4 c rest _ run _ _ _ more hr | case5 c rest _ run _ _ _ more hr =>
    obtain ⟨ht, hp⟩ := hrun hr
    rw [List.append_cons] at ht
    exact (takes_exponentPart _ _ _ more).behind_plain ht (plain_append.mpr ⟨hp, rfl⟩)
  | case7 c rest _ run _ _ _ more _ _ _ _ _ hr | case9 c rest _ run _ _ _ more _ _ _ _ _ _ _ hr =>
    obtain ⟨ht, hp⟩ := hrun hr
    exact takes_scientific _ _ _ ht hp
  | case8 c rest _ run _ _ _ more _ _ _ _ _ _ hr
  | case10 c rest _ run _ _ _ more _ _ _ _ _ _ _ hr =>
    obtain ⟨ht, hp⟩ := hrun hr
    exact takes_ok ht hp

end Numbers

theorem of_word {v u : α} {letters : Text} (h : word v letters t = .ok (u, rest)) :
    u = v ∧ t = letters ++ rest := by
  fun_induction word v letters t with
  | case1 r =>
    cases h
    exact ⟨rfl, rfl⟩
  | case2 => cases h
  | case3 letters c r ih =>
    obtain ⟨hv, hr⟩ := ih h
    exact ⟨hv, congrArg (c :: ·) hr⟩
  | case4 => cases h

/-- What a step takes of a text: it ends behind the closing bracket, or where the next part
opens. -/
def Next.Steps (close : Char) (opening t : Text) : Next → Prop
  | .done rest => ∃ w, t = w ++ close :: rest ∧ Balanced true w
  | .more rest => ∃ w, t = w ++ (opening ++ rest) ∧ Balanced true w

theorem steps_of_nextItem {first : Bool} {n : Next} (h : nextItem first t = .ok n) :
    n.Steps ']' [] t := by
  unfold nextItem at h
  split at h
  · cases h
  · next rest hk =>
    obtain ⟨b, ht, hb⟩ := exists_of_skip hk
    cases h
    exact ⟨b, ht, balanced_of_all_plain hb⟩
  · next c r _ hk =>
    obtain ⟨b, ht, hb⟩ := exists_of_skip hk
    split at h
    · cases h
      exact ⟨b, ht, balanced_of_all_plain hb⟩
    · split at h
      · next hc =>
        obtain ⟨b', hr, hb'⟩ := skip_eq r
        split at h
        · cases h
        · cases h
        · cases h
          refine ⟨b ++ ',' :: b', ?_, ?_⟩
          · rw [ht, hc, List.append_assoc, List.cons_append, List.nil_append, ← hr]
          · exact (balanced_of_all_plain hb).append (.comma (balanced_of_all_plain hb'))
      · cases h

theorem steps_of_nextKey {first : Bool} {n : Next} (h : nextKey first t = .ok n) :
    n.Steps '\x7d' ['"'] t := by
  unfold nextKey at h
  split at h
  · cases h
  · next rest hk =>
    obtain ⟨b, ht, hb⟩ := exists_of_skip hk
    cases h
    exact ⟨b, ht, balanced_of_all_plain hb⟩
  · next c r _ hk =>
    obtain ⟨b, ht, hb⟩ := exists_of_skip hk
    split at h
    · split at h
      · next hc =>
        cases h
        exact ⟨b, by rw [ht, hc]; rfl, balanced_of_all_plain hb⟩
      · cases h
    · split at h
      · next hc =>
        split at h
        · cases h
        · next more hm =>
          obtain ⟨b', hr, hb'⟩ := exists_of_skip hm
          cases h
          refine ⟨b ++ ',' :: b', ?_, ?_⟩
          · rw [ht, hc, hr, List.append_assoc]
            rfl
          · exact (balanced_of_all_plain hb).append (.comma (balanced_of_all_plain hb'))
        · cases h
        · cases h
      · cases h

theorem balanced_of_afterColon (h : afterColon t = .ok rest) :
    ∃ w, t = w ++ rest ∧ Balanced inner w := by
  rw [afterColon] at h
  split at h
  · cases h
  · next r hs =>
    obtain rfl := Except.ok.inj h
    obtain ⟨b, ht, hb⟩ := exists_of_skip hs
    exact ⟨b ++ [':'], by simp [ht], (balanced_of_all_plain hb).append (.plain rfl .nil)⟩
  · cases h

section Nested
variable {read : Text → Except Stop (α × Text)} {fuel : Nat} {first : Bool}

theorem balanced_of_items (hr : ∀ t, Takes (Balanced false) t (read t)) {all : List α}
    (h : items read fuel first t = .ok (all, rest)) :
    ∃ w, t = w ++ ']' :: rest ∧ Balanced true w := by
  induction fuel generalizing first t all rest with
  | zero => cases h
  | succ fuel ih =>
    obtain ⟨n, hn, h⟩ := bind_eq_ok_iff.mp h
    have hs := steps_of_nextItem hn
    cases n with
    | done rest' =>
      cases h
      exact hs
    | more mid =>
      obtain ⟨⟨item, behind⟩, hi, h⟩ := bind_eq_ok_iff.mp h
      obtain ⟨⟨others, rest'⟩, ho, h⟩ := bind_eq_ok_iff.mp h
      cases h
      obtain ⟨gap, rfl, hgap⟩ := hs
      obtain ⟨x, rfl, hx⟩ := hr mid item behind hi
      obtain ⟨w, rfl, hw⟩ := ih ho
      exact ⟨gap ++ (x ++ w), by simp, hgap.append (hx.mono.append hw)⟩

theorem balanced_of_fields (hr : ∀ t, Takes (Balanced false) t (read t)) {all : List (Text × α)}
    (h : fields read fuel first t = .ok (all, rest)) :
    ∃ w, t = w ++ '\x7d' :: rest ∧ Balanced true w := by
  induction fuel generalizing first t all rest with
  | zero => cases h
  | succ fuel ih =>
    obtain ⟨n, hn, h⟩ := bind_eq_ok_iff.mp h
    have hs := steps_of_nextKey hn
    cases n with
    | done rest' =>
      cases h
      exact hs
    | more mid =>
      obtain ⟨⟨key, colon⟩, hk, h⟩ := bind_eq_ok_iff.mp h
      obtain ⟨start, hc, h⟩ := bind_eq_ok_iff.mp h
      obtain ⟨⟨v, behind⟩, hv, h⟩ := bind_eq_ok_iff.mp h
      obtain ⟨⟨others, rest'⟩, ho, h⟩ := bind_eq_ok_iff.mp h
      cases h
      obtain ⟨gap, rfl, hgap⟩ := hs
      obtain ⟨name, rfl, s, rfl, hname⟩ := takes_stringBody mid key colon hk
      obtain ⟨y, rfl, hy⟩ : ∃ y, colon = y ++ start ∧ Balanced true y := balanced_of_afterColon hc
      obtain ⟨x, rfl, hx⟩ := hr start v behind hv
      obtain ⟨w, rfl, hw⟩ := ih ho
      refine ⟨gap ++ '"' :: (s ++ '"' :: (y ++ (x ++ w))), by simp, ?_⟩
      exact hgap.append (.string hname (hy.append (hx.mono.append hw)))

end Nested

/-- How the text of a value ends, if that can be told from the value. -/
def closing : Json → Text
  | array _ => [']']
  | object _ => ['\x7d']
  | _ => []

/-- What stands behind blanks is taken with them. -/
theorem balanced_behind_skip {v : Json} (hs : skip t = x ++ rest) (hx : Balanced false x)
    (hc : v.closing <:+ x) : ∃ w, t = w ++ rest ∧ Balanced false w ∧ v.closing <:+ w := by
  obtain ⟨b, ht, hb⟩ := exists_of_skip hs
  refine ⟨b ++ x, ?_, (balanced_of_all_plain hb).append hx, hc.trans (List.suffix_append b x)⟩
  rw [ht, List.append_assoc]

theorem balanced_of_word {v u : Json} {letters r : Text} {c : Char} (hv : v.closing = [])
    (hl : (c :: letters).all isPlain = true) (hs : skip t = c :: r)
    (h : word v letters r = .ok (u, rest)) :
    ∃ w, t = w ++ rest ∧ Balanced false w ∧ u.closing <:+ w := by
  obtain ⟨rfl, rfl⟩ := of_word h
  exact balanced_behind_skip hs (balanced_of_all_plain hl) (hv ▸ List.nil_suffix)

theorem balanced_of_value {depth : Nat} {v : Json} (h : value depth t = .ok (v, rest)) :
    ∃ w, t = w ++ rest ∧ Balanced false w ∧ v.closing <:+ w := by
  induction depth generalizing t v rest with
  | zero => cases h
  | succ depth ih =>
    have hread : ∀ t, Takes (Balanced false) t (value depth t) := by
      intro t v rest hv
      obtain ⟨w, hw, hb, -⟩ := ih hv
      exact ⟨w, hw, hb⟩
    unfold value at h
    split at h
    · cases h
    · next hk => exact balanced_of_word rfl rfl hk h
    · next hk => exact balanced_of_word rfl rfl hk h
    · next hk => exact balanced_of_word rfl rfl hk h
    · next r hk =>
      obtain ⟨⟨n, behind⟩, hn, h⟩ := bind_eq_ok_iff.mp h
      cases h
      obtain ⟨x, rfl, hx⟩ := takes_numberBody true r n rest hn
      have hminus : Balanced false ('-' :: x) := .plain rfl (balanced_of_all_plain hx)
      exact balanced_behind_skip hk hminus List.nil_suffix
    · next r hk =>
      obtain ⟨⟨s, behind⟩, hs, h⟩ := bind_eq_ok_iff.mp h
      cases h
      obtain ⟨x, rfl, s, rfl, hx⟩ := takes_stringBody r s rest hs
      have hquoted : Balanced false ('"' :: (s ++ ['"'])) := .string hx .nil
      exact balanced_behind_skip hk hquoted List.nil_suffix
    · next r hk =>
      split at h
      · cases h
      · obtain ⟨⟨all, behind⟩, ha, h⟩ := bind_eq_ok_iff.mp h
        cases h
        obtain ⟨x, rfl, hx⟩ := balanced_of_items hread ha
        have hlist : Balanced false ('[' :: (x ++ [']'])) := .list hx .nil
        exact balanced_behind_skip (by simpa using hk) hlist (List.suffix_append ('[' :: x) [']'])
    · next r hk =>
      split at h
      · cases h
      · obtain ⟨⟨all, behind⟩, ha, h⟩ := bind_eq_ok_iff.mp h
        cases h
        obtain ⟨x, rfl, hx⟩ := balanced_of_fields hread ha
        have hobject : Balanced false ('\x7b' :: (x ++ ['\x7d'])) := .object hx .nil
        exact balanced_behind_skip (by simpa using hk) hobject
          (List.suffix_append ('\x7b' :: x) ['\x7d'])
    · next c r _ _ _ _ _ _ _ hk =>
      split at h
      · obtain ⟨⟨n, behind⟩, hn, h⟩ := bind_eq_ok_iff.mp h
        cases h
        obtain ⟨x, hx, hp⟩ := takes_numberBody false (c :: r) n rest hn
        exact balanced_behind_skip (hk.trans hx) (balanced_of_all_plain hp) List.nil_suffix
      · cases h

/-- A whole text is a balanced text of its value, and blanks. -/
theorem exists_of_parse {v : Json} (h : parse t = .ok v) :
    ∃ w blanks, t = w ++ blanks ∧ Balanced false w ∧ v.closing <:+ w ∧
      ∀ c ∈ blanks, isSpace c = true := by
  rw [parse, whole] at h
  split at h
  · cases h
  · next v' rest hv =>
    split at h
    · next hs =>
      cases h
      obtain ⟨w, hw, hb, hc⟩ := balanced_of_value hv
      exact ⟨w, rest, hw, hb, hc, List.dropWhile_eq_nil_iff.mp hs⟩
    · cases h

theorem balanced_of_parse {v : Json} (h : parse t = .ok v) : Balanced false t := by
  obtain ⟨w, blanks, rfl, hw, -, hb⟩ := exists_of_parse h
  refine hw.append (balanced_of_all_plain ?_)
  rw [List.all_eq_true]
  exact fun c hc => isPlain_of_isSpace (hb c hc)

end SourceMarks.Json
