import SourceMarks.Marker.Occurrence
import SourceMarks.Proofs.Marker.Pieces
import SourceMarks.Proofs.Text.Position

/-!
Scanning a text from the left. Main statement: the occurrences of a marker follow each other, each
at the least place where a form begins that the one before leaves free, and no form begins outside
them.
-/
namespace SourceMarks.Marker
variable {m : Marker} {text before r : Text} {c : Char} {f : Form} {o : Occurrence}
  {os : List Occurrence} {n k : Nat}

/-- A form as it is read where `after` follows: a load form, or a cache form with the whole line. -/
def Stands (f : Form) (after : Text) : Marker → Prop
  | load => IsLoad f
  | noCache => IsCache f ∧ ∀ c ∈ after.head?, inLine c = false

/-- A form stands in a text behind `before`. -/
def StandsIn (m : Marker) (text before : Text) (f : Form) : Prop :=
  ∃ after, text = before ++ (f.written ++ after) ∧ Stands f after m

/-- A form begins at a byte offset. -/
def BeginsAt (m : Marker) (text : Text) (p : Nat) : Prop :=
  ∃ before f, m.StandsIn text before f ∧ before.byteLength = p

/-- An occurrence is that of a form behind `before`: it has its payload, its text is the span, and
its line is the line on which the span starts. -/
structure IsOccurrence (m : Marker) (text before : Text) (f : Form) (o : Occurrence) : Prop where
  stands : m.StandsIn text before f
  marker : o.marker = m
  payload : o.payload = f.payload
  start : o.start = before.byteLength
  stop : o.stop = (before ++ f.written).byteLength
  line : o.line = text.lineOf o.start

/-- Occurrences found from the left, from an offset on. -/
inductive Greedy (m : Marker) (text : Text) : (offset : Nat) → List Occurrence → Prop
  | done {n : Nat} : (∀ p, n ≤ p → ¬ m.BeginsAt text p) → Greedy m text n []
  | next {n : Nat} {before : Text} {f : Form} {o : Occurrence} {os : List Occurrence} :
    m.IsOccurrence text before f o → n ≤ o.start →
      (∀ p, n ≤ p → p < o.start → ¬ m.BeginsAt text p) →
        Greedy m text o.stop os → Greedy m text n (o :: os)

theorem form?_eq_some_iff :
    m.form? text = some f ↔ ∃ after, text = f.written ++ after ∧ Stands f after m := by
  cases m with
  | load =>
    rw [form?, loadForm?_eq_some_iff]
    constructor
    · intro h
      obtain ⟨hf, after, ht⟩ := h
      exact ⟨after, ht.symm, hf⟩
    · intro h
      obtain ⟨after, ht, hf⟩ := h
      exact ⟨hf, after, ht.symm⟩
  | noCache =>
    rw [form?, noCacheForm?_eq_some_iff]
    constructor
    · intro h
      obtain ⟨hf, after, ht, hend⟩ := h
      exact ⟨after, ht, hf, hend⟩
    · intro h
      obtain ⟨after, ht, hf, hend⟩ := h
      exact ⟨hf, after, ht, hend⟩

theorem standsIn_append_iff (before r : Text) :
    m.StandsIn (before ++ r) before f ↔ m.form? r = some f := by
  rw [form?_eq_some_iff]
  simp [StandsIn]

/-- A form that begins where `before` ends stands behind `before`. -/
theorem beginsAt_byteLength_iff (before r : Text) :
    m.BeginsAt (before ++ r) before.byteLength ↔ ∃ f, m.form? r = some f := by
  constructor
  · intro h
    obtain ⟨front, f, hf, hlength⟩ := h
    obtain ⟨after, ht, -⟩ := id hf
    have hfront := Text.upTo_byteLength front (f.written ++ after)
    rw [hlength, ← ht, Text.upTo_byteLength] at hfront
    subst hfront
    exact ⟨f, (standsIn_append_iff before r).mp hf⟩
  · intro h
    obtain ⟨f, hf⟩ := h
    exact ⟨before, f, (standsIn_append_iff before r).mpr hf, rfl⟩

/-- No form begins at a character that is outside all forms, or inside that character. -/
theorem not_beginsAt_plain (h : m.form? (c :: r) = none) {p : Nat} (hp : before.byteLength ≤ p)
    (hlt : p < (before ++ [c]).byteLength) : ¬ m.BeginsAt (before ++ c :: r) p := by
  intro hb
  obtain ⟨front, f, hf, rfl⟩ := id hb
  obtain ⟨after, ht, -⟩ := hf
  have hfront : front <+: before ++ c :: r := ⟨_, ht.symm⟩
  have hlength : front.byteLength = before.byteLength := by
    cases Text.byteLength_front_cases hfront with
    | inl hle => omega
    | inr hge => omega
  rw [hlength, beginsAt_byteLength_iff] at hb
  obtain ⟨g, hg⟩ := hb
  rw [h] at hg
  cases hg

theorem Greedy.from_earlier (h : m.Greedy text k os) (hn : n ≤ k)
    (hnone : ∀ p, n ≤ p → p < k → ¬ m.BeginsAt text p) : m.Greedy text n os := by
  have hall : ∀ q, (∀ p, k ≤ p → p < q → ¬ m.BeginsAt text p) → ∀ p,
      n ≤ p → p < q → ¬ m.BeginsAt text p := by
    intro q hq p hp hlt
    by_cases hk : p < k
    · exact hnone p hp hk
    · exact hq p (by omega) hlt
  cases h with
  | done hrest => exact .done fun p hp => hall (p + 1) (fun p hp _ => hrest p hp) p hp (by omega)
  | next ho hk hleast hrest => exact .next ho (by omega) (hall _ hleast) hrest

theorem form?_nil (m : Marker) : m.form? [] = none := by
  cases h : m.form? [] with
  | none => rfl
  | some f =>
    obtain ⟨hn, r, hr⟩ := exists_of_form? h
    exact absurd (List.append_eq_nil_iff.mp hr.symm).1 hn

/-- The pieces behind `before` are found from the left, whatever `before` holds. -/
theorem greedy_occurrencesFrom (before r : Text) : m.Greedy (before ++ r) before.byteLength
    (m.occurrencesFrom before.byteLength before.lineAfter (m.pieces r)) := by
  induction r using piece_induction (m := m) generalizing before with
  | nil =>
    rw [pieces_nil]
    refine .done fun p hp hb => ?_
    obtain ⟨front, f, ⟨after, ht, -⟩, rfl⟩ := id hb
    have hle := Text.byteLength_mono ⟨_, ht.symm⟩
    rw [List.append_nil] at hle
    rw [Nat.le_antisymm hle hp, beginsAt_byteLength_iff, form?_nil] at hb
    simp at hb
  | plain c r hc ih =>
    have hr := ih (before ++ [c])
    rw [List.append_assoc, List.singleton_append, Text.lineAfter_concat] at hr
    have hle := Text.byteLength_concat before c
    rw [pieces_plain hc, occurrencesFrom, ← hle]
    refine hr.from_earlier (by omega) fun p hp hlt => ?_
    exact not_beginsAt_plain hc hp hlt
  | form f r hf ih =>
    have hr := ih (before ++ f.written)
    have hline := Text.upTo_byteLength before (f.written ++ r)
    rw [List.append_assoc, Text.byteLength_append, Text.lineAfter_append] at hr
    rw [pieces_form hf, occurrencesFrom]
    refine .next ⟨(standsIn_append_iff before _).mpr hf, rfl, rfl, rfl, ?_, ?_⟩ ?_ ?_ hr
    · rw [Text.byteLength_append]
      rfl
    · rw [Text.lineOf]
      exact congrArg Text.lineAfter hline.symm
    · exact Nat.le_refl before.byteLength
    · intro p hp hlt
      exact absurd hp (Nat.not_le.mpr hlt)

theorem IsOccurrence.beginsAt (h : m.IsOccurrence text before f o) : m.BeginsAt text o.start :=
  ⟨before, f, h.stands, h.start.symm⟩

theorem IsOccurrence.start_lt_stop (h : m.IsOccurrence text before f o) : o.start < o.stop := by
  obtain ⟨after, -, hf⟩ := h.stands
  have hne := (exists_of_form? (form?_eq_some_iff.mpr ⟨after, rfl, hf⟩)).1
  have hpos := Text.byteLength_pos hne
  rw [h.start, h.stop, Text.byteLength_append]
  omega

/-- What is found at a place is determined by the text. -/
theorem IsOccurrence.unique {before' : Text} {f' : Form} {o' : Occurrence}
    (h : m.IsOccurrence text before f o) (h' : m.IsOccurrence text before' f' o')
    (hs : o.start = o'.start) : o = o' := by
  obtain ⟨after, ht, -⟩ := h.stands
  obtain ⟨after', ht', -⟩ := h'.stands
  have hlength : before.byteLength = before'.byteLength := by rw [← h.start, hs, h'.start]
  have hbefore : before = before' := by
    rw [← Text.upTo_byteLength before (f.written ++ after), ← ht, hlength, ht',
      Text.upTo_byteLength]
  subst hbefore
  have hf := h.stands
  have hf' := h'.stands
  rw [ht, standsIn_append_iff] at hf hf'
  obtain rfl := Option.some.inj (hf.symm.trans hf')
  have hline : o.line = o'.line := by rw [h.line, h'.line, hs]
  have hstop : o.stop = o'.stop := by rw [h.stop, h'.stop]
  have hpayload : o.payload = o'.payload := by rw [h.payload, h'.payload]
  have hmarker : o.marker = o'.marker := by rw [h.marker, h'.marker]
  cases o
  cases o'
  simp_all

theorem Greedy.unique {os' : List Occurrence} (h : m.Greedy text n os) (h' : m.Greedy text n os') :
    os = os' := by
  induction h generalizing os' with
  | done hnone =>
    cases h' with
    | done => rfl
    | next ho hn _ _ => exact absurd ho.beginsAt (hnone _ hn)
  | @next n before f o os ho hn hleast _ ih =>
    cases h' with
    | done hnone => exact absurd ho.beginsAt (hnone _ hn)
    | @next _ before' f' o' os' ho' hn' hleast' hrest' =>
      have hle : o.start ≤ o'.start := Nat.not_lt.mp fun hlt => hleast _ hn' hlt ho'.beginsAt
      have hge : o'.start ≤ o.start := Nat.not_lt.mp fun hlt => hleast' _ hn hlt ho.beginsAt
      obtain rfl := ho.unique ho' (Nat.le_antisymm hle hge)
      rw [ih hrest']

theorem Greedy.start_lt_stop (h : m.Greedy text n os) (ho : o ∈ os) :
    n ≤ o.start ∧ o.start < o.stop := by
  induction h with
  | done => cases ho
  | next hf hn _ _ ih =>
    have hlt := hf.start_lt_stop
    cases ho with
    | head => exact ⟨hn, hlt⟩
    | tail _ ho =>
      have hi := ih ho
      omega

theorem Greedy.pairwise (h : m.Greedy text n os) : os.Pairwise fun a b => a.stop ≤ b.start := by
  induction h with
  | done => exact List.Pairwise.nil
  | next _ _ _ hrest ih => exact List.Pairwise.cons (fun b hb => (hrest.start_lt_stop hb).1) ih

theorem Greedy.isOccurrence (h : m.Greedy text n os) (ho : o ∈ os) :
    ∃ before f, m.IsOccurrence text before f o := by
  induction h with
  | done => cases ho
  | @next n before f o' os hf _ _ _ ih =>
    cases List.mem_cons.mp ho with
    | inl he => exact ⟨before, f, he ▸ hf⟩
    | inr ho => exact ih ho

/-- Every form begins in one of the spans. -/
theorem Greedy.covers (h : m.Greedy text n os) {p : Nat} (hp : n ≤ p) (hb : m.BeginsAt text p) :
    ∃ o ∈ os, o.start ≤ p ∧ p < o.stop := by
  induction h with
  | done hnone => exact absurd hb (hnone p hp)
  | @next n before f o os ho hn hleast hrest ih =>
    have hstart : o.start ≤ p := Nat.not_lt.mp fun hlt => hleast p hp hlt hb
    by_cases hstop : p < o.stop
    · exact ⟨o, List.mem_cons_self, hstart, hstop⟩
    · obtain ⟨o', ho', hspan⟩ := ih (Nat.not_lt.mp hstop)
      exact ⟨o', List.mem_cons_of_mem o ho', hspan⟩

/-- The scan of a text is the one list of occurrences that is found from the left. Their spans do
not meet and go on to the right, and every form begins in one of them. -/
theorem scan_greedy (m : Marker) (text : Text) :
    (∀ os, m.Greedy text 0 os ↔ os = m.scan text) ∧
    (∀ o ∈ m.scan text, o.start < o.stop) ∧
    (m.scan text).Pairwise (fun a b => a.stop ≤ b.start) ∧
    ∀ p, m.BeginsAt text p → ∃ o ∈ m.scan text, o.start ≤ p ∧ p < o.stop := by
  have hscan : m.Greedy text 0 (m.scan text) := greedy_occurrencesFrom [] text
  refine ⟨fun os => ?_, fun o ho => (hscan.start_lt_stop ho).2, hscan.pairwise, fun p hp => ?_⟩
  · constructor
    · intro h
      exact h.unique hscan
    · intro h
      exact h ▸ hscan
  · exact hscan.covers (Nat.zero_le p) hp

/-- A load marker in the payload of another one, which closes both. -/
def nested : Text := "//@Load(//@Load(a)"

/-- The form inside begins in the span of the one outside. -/
theorem scan_greedy_nested :
    load.scan nested = [⟨load, ['/', '/', '@', 'L', 'o', 'a', 'd', '(', 'a'], 0, 18, 1⟩] ∧
    load.BeginsAt nested 8 ∧ ∃ o ∈ load.scan nested, o.start ≤ 8 ∧ 8 < o.stop := by
  have hform :
      load.form? (loadOpening ++ ['a', ')']) = some ⟨loadOpening ++ ['a', ')'], ['a']⟩ := by decide
  have hbegins : load.BeginsAt nested 8 := (beginsAt_byteLength_iff loadOpening _).mpr ⟨_, hform⟩
  exact ⟨by decide +kernel, hbegins, (scan_greedy load nested).2.2.2 8 hbegins⟩

end SourceMarks.Marker
