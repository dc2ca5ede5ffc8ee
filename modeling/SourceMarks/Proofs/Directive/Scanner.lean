import SourceMarks.Directive.Payload
import SourceMarks.Proofs.Json.Consumption

/-!
The separating commas of a payload, found along texts that the scanner passes over. It passes over
every JSON text, from outside of all brackets and strings to outside of them.
-/
namespace SourceMarks.Payload
variable {s s' s'' : Scanner} {depth offset k : Nat} {c : Char} {w x t : Text} {ks : List Nat}

theorem commasFrom_append (s : Scanner) (offset : Nat) (w x : Text) :
    commasFrom s offset (w ++ x) =
      commasFrom s offset w ++ commasFrom (w.foldl Scanner.step s) (offset + w.length) x := by
  induction w generalizing s offset with
  | nil => rfl
  | cons c w ih =>
    have hl : offset + 1 + w.length = offset + (c :: w).length := by
      rw [List.length_cons]
      omega
    rw [List.cons_append, commasFrom, commasFrom, ih, hl, List.foldl_cons]
    split <;> rfl

/-- The scanner goes from one state to another along a text and finds no separating comma. -/
structure Passes (s : Scanner) (w : Text) (s' : Scanner) : Prop where
  run : w.foldl Scanner.step s = s'
  quiet : ∀ offset, commasFrom s offset w = []

def outside (depth : Nat) : Scanner := ⟨depth, false, false⟩

def inside (depth : Nat) : Scanner := ⟨depth, true, false⟩

theorem Passes.commasFrom (h : Passes s w s') (offset : Nat) (x : Text) :
    commasFrom s offset (w ++ x) = Payload.commasFrom s' (offset + w.length) x := by
  rw [commasFrom_append, h.quiet, h.run, List.nil_append]

theorem passes_nil (s : Scanner) : Passes s [] s := ⟨rfl, fun _ => rfl⟩

theorem Passes.append (h : Passes s w s') (h' : Passes s' x s'') : Passes s (w ++ x) s'' := by
  refine ⟨by rw [List.foldl_append, h.run, h'.run], fun offset => ?_⟩
  rw [h.commasFrom, h'.quiet]

theorem Passes.cons (hc : s.separates c = false) (hs : s.step c = s') (h : Passes s' w s'') :
    Passes s (c :: w) s'' := by
  refine ⟨by rw [List.foldl_cons, hs, h.run], fun offset => ?_⟩
  rw [Payload.commasFrom, hs, h.quiet]
  simp [hc]

theorem quiet_congr {offset' : Nat} (h : commasFrom s offset t = []) :
    commasFrom s offset' t = [] := by
  induction t generalizing s offset offset' with
  | nil => rfl
  | cons c t ih =>
    rw [commasFrom] at h ⊢
    split at h
    · cases h
    · next hc => rw [if_neg hc, ih h]

theorem passes_cons_iff :
    Passes s (c :: w) s' ↔ s.separates c = false ∧ Passes (s.step c) w s' := by
  constructor
  · intro h
    have hq := h.quiet 0
    rw [commasFrom] at hq
    split at hq
    · cases hq
    · next hc => exact ⟨by simpa using hc, h.run, fun _ => quiet_congr hq⟩
  · intro h
    exact .cons h.1 rfl h.2

theorem passes_char (hc : s.separates c = false) (hs : s.step c = s') : Passes s [c] s' :=
  .cons hc hs (passes_nil s')

/-- The inside of a string is passed over in the string. -/
theorem passes_inside (h : Json.Inside w) (depth : Nat) :
    Passes (inside depth) w (inside depth) := by
  induction h with
  | nil => exact passes_nil _
  | plain hq hb _ ih =>
    exact .cons rfl (by simp [Scanner.step, inside, hq, hb]) ih
  | @escaped c t _ ih =>
    have hescaped : Passes ⟨depth, true, true⟩ (c :: t) (inside depth) := .cons rfl rfl ih
    exact .cons rfl rfl hescaped

theorem passes_string (h : Json.Inside w) (depth : Nat) :
    Passes (outside depth) ('"' :: (w ++ ['"'])) (outside depth) :=
  .cons rfl rfl ((passes_inside h depth).append (passes_char rfl rfl))

/-- A balanced text leaves the scanner where it is. Commas in brackets do not separate. -/
theorem passes_balanced {inner : Bool} (h : Json.Balanced inner w) (hd : inner = true → 0 < depth) :
    Passes (outside depth) w (outside depth) := by
  induction h generalizing depth with
  | nil => exact passes_nil _
  | @plain inner c t hc _ ih =>
    have hm := of_decide_eq_true hc
    simp only [List.mem_cons, List.not_mem_nil, or_false, not_or] at hm
    refine .cons ?_ ?_ (ih hd)
    · simp [Scanner.separates, outside, hm]
    · simp [Scanner.step, outside, hm]
  | comma _ ih =>
    refine .cons ?_ rfl (ih hd)
    simp [Scanner.separates, outside, (hd rfl).ne']
  | string hs _ ih =>
    simpa using (passes_string hs depth).append (ih hd)
  | list _ _ ihs ih | object _ _ ihs ih =>
    refine .cons rfl rfl ((ihs fun _ => Nat.succ_pos depth).append (.cons rfl rfl (ih hd)))

theorem passes_balanced_initial (h : Json.Balanced false w) : Passes .initial w .initial := by
  have hp : Passes (outside 0) w (outside 0) := passes_balanced h (fun h => nomatch h)
  exact hp

theorem commasFrom_comma (offset : Nat) (x : Text) :
    commasFrom .initial offset (',' :: x) = offset :: commasFrom .initial (offset + 1) x :=
  rfl

/-- One comma separates two texts that the scanner passes over. -/
theorem structuralCommas_of_two {front back : Text} (hf : Passes .initial front .initial)
    (hb : Passes .initial back .initial) :
    structuralCommas (front ++ ',' :: back) = [front.length] := by
  rw [structuralCommas, hf.commasFrom, commasFrom_comma, hb.quiet, Nat.zero_add]

/-- Two commas separate three texts that the scanner passes over. -/
theorem structuralCommas_of_three {front middle back : Text} (hf : Passes .initial front .initial)
    (hm : Passes .initial middle .initial) (hb : Passes .initial back .initial) :
    structuralCommas (front ++ ',' :: (middle ++ ',' :: back)) =
      [front.length, front.length + 1 + middle.length] := by
  rw [structuralCommas, hf.commasFrom, commasFrom_comma, hm.commasFrom, commasFrom_comma, hb.quiet,
    Nat.zero_add]

theorem step_of_separates (h : s.separates c = true) : c = ',' ∧ s.step c = s := by
  simp only [Scanner.separates, Bool.and_eq_true, Bool.not_eq_true', decide_eq_true_eq] at h
  obtain ⟨⟨hs, rfl⟩, -⟩ := h
  exact ⟨rfl, by simp [Scanner.step, hs]⟩

/-- In front of the first comma there is none, and the other commas stand behind it. -/
theorem exists_of_commasFrom (h : commasFrom s offset t = k :: ks) :
    ∃ front back s', t = front ++ ',' :: back ∧ k = offset + front.length ∧ Passes s front s' ∧
      s'.separates ',' = true ∧ ks = commasFrom s' (k + 1) back := by
  induction t generalizing s offset with
  | nil => cases h
  | cons c t ih =>
    rw [commasFrom] at h
    split at h
    · next hc =>
      obtain ⟨rfl, hs⟩ := step_of_separates hc
      cases h
      exact ⟨[], t, s, rfl, rfl, passes_nil s, hc, by rw [hs]⟩
    · next hc =>
      obtain ⟨front, back, s', rfl, hk, hp, hsep, hks⟩ := ih h
      refine ⟨c :: front, back, s', rfl, ?_, .cons (by simpa using hc) rfl hp, hsep, hks⟩
      rw [hk, List.length_cons]
      omega

theorem exists_of_mem_commasFrom (h : k ∈ commasFrom s offset t) :
    ∃ front back, t = front ++ ',' :: back ∧ k = offset + front.length := by
  induction t generalizing s offset with
  | nil => cases h
  | cons c t ih =>
    have hrest : k ∈ commasFrom (s.step c) (offset + 1) t →
        ∃ front back, c :: t = front ++ ',' :: back ∧ k = offset + front.length := by
      intro hk
      obtain ⟨front, back, rfl, hl⟩ := ih hk
      refine ⟨c :: front, back, rfl, ?_⟩
      rw [hl, List.length_cons]
      omega
    rw [commasFrom] at h
    split at h
    · next hc =>
      cases List.mem_cons.mp h with
      | inl h => exact ⟨[], t, by rw [(step_of_separates hc).1]; rfl, h⟩
      | inr h => exact hrest h
    · exact hrest h

/-- Only in strings a backslash is remembered. -/
def Scanner.Sound (s : Scanner) : Prop := s.escaped = true → s.inString = true

theorem sound_initial : Scanner.initial.Sound := fun h => nomatch h

theorem sound_step (h : s.Sound) (c : Char) : (s.step c).Sound := by
  unfold Scanner.step
  split
  · next hs =>
    split
    · exact fun he => nomatch he
    · next he =>
      split
      · exact fun _ => hs
      · split
        · exact fun he' => absurd he' he
        · exact h
  · next hs =>
    repeat' split
    all_goals exact fun he => absurd (h he) hs

theorem sound_foldl (h : s.Sound) (w : Text) : (w.foldl Scanner.step s).Sound := by
  induction w generalizing s with
  | nil => exact h
  | cons c w ih => exact ih (sound_step h c)

theorem eq_initial_of_separates (h : s.Sound) (hc : s.separates c = true) : s = .initial := by
  obtain ⟨depth, inString, escaped⟩ := s
  simp only [Scanner.separates, Bool.and_eq_true, Bool.not_eq_true', decide_eq_true_eq] at hc
  obtain ⟨⟨rfl, -⟩, rfl⟩ := hc
  cases escaped with
  | false => rfl
  | true => cases h rfl

end SourceMarks.Payload
