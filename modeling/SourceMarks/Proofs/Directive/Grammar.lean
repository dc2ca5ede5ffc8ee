import SourceMarks.Proofs.Directive.Scanner
import SourceMarks.Proofs.Directive.Sources

/-!
The grammar of payloads. Main statement: exactly the payloads of the grammar are read, and any other
one is refused for the first of its parts that is not in the grammar.
-/
namespace SourceMarks.Payload
variable {payload front source label w t : Text} {options? : Option Text} {c : Char}
  {depth k : Nat} {gs : List Text} {d : Directive}

/-- A text that closes its strings, with commas in strings only. -/
inductive Unbroken : Text → Prop
  | nil : Unbroken []
  | char {c : Char} {t : Text} : c ≠ ',' → c ≠ '"' → Unbroken t → Unbroken (c :: t)
  | string {s t : Text} : Json.Inside s → Unbroken t → Unbroken ('"' :: (s ++ '"' :: t))

/-- What can stand in front of the first comma: a label, up to blanks. -/
structure IsFront (front label : Text) : Prop where
  unbroken : Unbroken front
  unbracketed : ∀ c ∈ front, c ≠ '[' ∧ c ≠ '\x7b'
  trimmed : front.trim = label
  nonempty : label ≠ []

/-- The payloads of a directive. Options that are left out are the default ones. -/
inductive IsPayload : Text → Directive → Prop
  | short {front source label : Text} {gs : List Text} : IsFront front label → IsGlobs source gs →
    IsPayload (front ++ ',' :: source) ⟨label, gs, .default⟩
  | long {front source options label : Text} {gs : List Text} {o : Options} :
    IsFront front label → IsGlobs source gs → IsOptions options o →
    IsPayload (front ++ ',' :: (source ++ ',' :: options)) ⟨label, gs, o⟩

/-- A payload cut at its first and at its last separating comma, which may be the same. -/
inductive Cut (payload front source : Text) : (options? : Option Text) → Prop
  | one : payload = front ++ ',' :: source → structuralCommas payload = [front.length] →
    Cut payload front source none
  | more {options : Text} : payload = front ++ ',' :: (source ++ ',' :: options) →
    (structuralCommas payload).head? = some front.length →
    (structuralCommas payload).getLast? = some (front.length + 1 + source.length) →
    Cut payload front source (some options)

theorem unbroken_of_forall (h : ∀ c ∈ w, c ≠ ',' ∧ c ≠ '"') : Unbroken w := by
  induction w with
  | nil => exact .nil
  | cons c w ih =>
    rw [List.forall_mem_cons] at h
    exact .char h.1.1 h.1.2 (ih h.2)

theorem passes_unbroken (h : Unbroken w) (hb : ∀ c ∈ w, c ≠ '[' ∧ c ≠ '\x7b') :
    Passes .initial w .initial := by
  induction h with
  | nil => exact passes_nil _
  | @char c t hc hq _ ih =>
    rw [List.forall_mem_cons] at hb
    refine .cons ?_ ?_ (ih hb.2)
    · simp [Scanner.separates, Scanner.initial, hc]
    · simp [Scanner.step, Scanner.initial, hq, hb.1]
  | @string s t hs _ ih =>
    have ht : ∀ c ∈ t, c ≠ '[' ∧ c ≠ '\x7b' := fun c hc => hb c (by simp [hc])
    have hstring : Passes .initial ('"' :: (s ++ ['"'])) .initial := passes_string hs 0
    simpa using hstring.append (ih ht)

/-- A scan that starts in a string and ends outside passes over the quote that closes the string. -/
theorem exists_close (h : Passes (inside depth) t (outside k)) :
    ∃ s r, t = s ++ '"' :: r ∧ Json.Inside s ∧ Passes (outside depth) r (outside k) := by
  induction hn : t.length using Nat.strong_induction_on generalizing t with
  | _ n ih =>
    cases t with
    | nil => cases h.run
    | cons c t =>
      rw [List.length_cons] at hn
      have h := (passes_cons_iff.mp h).2
      by_cases hq : c = '"'
      · subst hq
        exact ⟨[], t, rfl, .nil, h⟩
      by_cases hb : c = '\\'
      · subst hb
        cases t with
        | nil => cases h.run
        | cons e t =>
          rw [List.length_cons] at hn
          obtain ⟨s, r, rfl, hs, hr⟩ := ih t.length (by omega) (passes_cons_iff.mp h).2 rfl
          exact ⟨'\\' :: e :: s, r, rfl, .escaped hs, hr⟩
      · have hstep : (inside depth).step c = inside depth := by
          simp [Scanner.step, inside, hq, hb]
        rw [hstep] at h
        obtain ⟨s, r, rfl, hs, hr⟩ := ih t.length (by omega) h rfl
        exact ⟨c :: s, r, rfl, .plain hq hb hs, hr⟩

theorem unbroken_of_passes (h : Passes .initial w .initial)
    (hb : ∀ c ∈ w, c ≠ '[' ∧ c ≠ '\x7b') : Unbroken w := by
  induction hn : w.length using Nat.strong_induction_on generalizing w with
  | _ n ih =>
    cases w with
    | nil => exact .nil
    | cons c t =>
      rw [List.length_cons] at hn
      rw [List.forall_mem_cons] at hb
      obtain ⟨hsep, h⟩ := passes_cons_iff.mp h
      by_cases hq : c = '"'
      · subst hq
        have hinside : Passes (inside 0) t (outside 0) := h
        obtain ⟨s, r, rfl, hs, hr⟩ := exists_close hinside
        have hl : r.length < n := by
          simp only [List.length_append, List.length_cons] at hn
          omega
        exact .string hs (ih r.length hl hr (fun c hc => hb.2 c (by simp [hc])) rfl)
      · have hc : c ≠ ',' := by
          rintro rfl
          cases hsep
        have hstep : Scanner.initial.step c = .initial := by
          simp [Scanner.step, Scanner.initial, hq, hb.1]
        rw [hstep] at h
        exact .char hc hq (ih t.length (by omega) h hb.2 rfl)

theorem label?_eq_some_iff (h : Passes .initial front .initial) :
    label? front = some label ↔ IsFront front label := by
  rw [label?]
  constructor
  · intro hl
    split at hl
    · cases hl
    · next hb =>
      have hu : ∀ c ∈ front, c ≠ '[' ∧ c ≠ '\x7b' := by simpa using hb
      dsimp only at hl
      split at hl
      · cases hl
      · next he =>
        cases hl
        exact ⟨unbroken_of_passes h hu, hu, rfl, by simpa using he⟩
  · intro hf
    have hb : front.any (fun c => c = '[' || c = '\x7b') = false := by
      simpa using hf.unbracketed
    simp [hb, hf.trimmed, hf.nonempty]

theorem isPlain_of_isBlank (h : isBlank c = true) : Json.isPlain c = true :=
  Json.isPlain_of_class (by decide) h

/-- The scanner passes over the source of a value. -/
theorem passes_source {v : Json} (h : Json.parse source.trim = .ok v) :
    Passes .initial source .initial := by
  obtain ⟨b, e, hs, hblank⟩ := Text.exists_trim source
  rw [List.forall_mem_append] at hblank
  have hplain : ∀ {t : Text}, (∀ c ∈ t, isBlank c = true) → Json.Balanced false t := by
    intro t ht
    refine Json.balanced_of_all_plain ?_
    rw [List.all_eq_true]
    exact fun c hc => isPlain_of_isBlank (ht c hc)
  rw [hs]
  refine passes_balanced_initial ?_
  exact (hplain hblank.1).append ((Json.balanced_of_parse h).append (hplain hblank.2))

theorem IsFront.passes (h : IsFront front label) : Passes .initial front .initial :=
  passes_unbroken h.unbroken h.unbracketed

theorem IsGlobs.passes (h : IsGlobs source gs) : Passes .initial source .initial :=
  passes_source h.2

theorem IsOptions.passes {o : Options} (h : IsOptions source o) :
    Passes .initial source .initial := by
  obtain ⟨fields, hp, -⟩ := h
  exact passes_source hp

/-- In front of the first separating comma the scanner is back where it started. -/
theorem Cut.passes_front (h : Cut payload front source options?) :
    Passes .initial front .initial := by
  have hhead : (structuralCommas payload).head? = some front.length ∧
      ∃ rest, payload = front ++ rest := by
    cases h with
    | one hp hc => exact ⟨by rw [hc]; rfl, _, hp⟩
    | more hp hh _ => exact ⟨hh, _, hp⟩
  obtain ⟨hhead, rest, hp⟩ := hhead
  obtain ⟨ks, hks⟩ := List.head?_eq_some_iff.mp hhead
  obtain ⟨front', back, s, ht, hl, hpass, hsep, -⟩ := exists_of_commasFrom hks
  have hs : s = .initial := by
    refine eq_initial_of_separates ?_ hsep
    rw [← hpass.run]
    exact sound_foldl sound_initial front'
  rw [Nat.zero_add] at hl
  obtain rfl := List.append_inj_left (hp.symm.trans ht) hl
  exact hs ▸ hpass

theorem exists_cut (h : structuralCommas payload ≠ []) :
    ∃ front source options?, Cut payload front source options? := by
  obtain ⟨k, ks, hks⟩ := List.exists_cons_of_ne_nil h
  obtain ⟨front, back, s, rfl, hk, -, -, hrest⟩ := exists_of_commasFrom hks
  rw [Nat.zero_add] at hk
  subst hk
  cases hl : ks.getLast? with
  | none =>
    rw [List.getLast?_eq_none_iff] at hl
    exact ⟨front, back, none, .one rfl (by rw [hks, hl])⟩
  | some last =>
    have hm := List.mem_of_getLast? hl
    rw [hrest] at hm
    obtain ⟨source, options, rfl, rfl⟩ := exists_of_mem_commasFrom hm
    refine ⟨front, source, some options, .more rfl (by rw [hks]; rfl) ?_⟩
    rw [hks, List.getLast?_cons, hl]
    rfl

theorem cutSources_of_lengths (front middle back : Text) :
    cutSources (front ++ ',' :: (middle ++ ',' :: back)) front.length
      (front.length + 1 + middle.length) = (middle, some back) := by
  have hm : (front ++ ',' :: (middle ++ ',' :: back)).take (front.length + 1 + middle.length) =
      front ++ ',' :: middle := by
    have hl : (front ++ ',' :: middle).length = front.length + 1 + middle.length := by
      simp only [List.length_append, List.length_cons]
      omega
    have ht :
        front ++ ',' :: (middle ++ ',' :: back) = (front ++ ',' :: middle) ++ ',' :: back := by
      simp
    rw [← hl, ht, List.take_left]
  have hb : (front ++ ',' :: (middle ++ ',' :: back)).drop (front.length + 1 + middle.length + 1) =
      back := by
    have hl :
        (front ++ ',' :: (middle ++ [','])).length = front.length + 1 + middle.length + 1 := by
      simp only [List.length_append, List.length_cons, List.length_nil]
      omega
    have ht : front ++ ',' :: (middle ++ ',' :: back) =
        (front ++ ',' :: (middle ++ [','])) ++ back := by
      simp
    rw [← hl, ht, List.drop_left]
  have hd : (front ++ ',' :: middle).drop (front.length + 1) = middle := by
    have hl : (front ++ [',']).length = front.length + 1 := by simp
    have ht : front ++ ',' :: middle = (front ++ [',']) ++ middle := by simp
    rw [← hl, ht, List.drop_left]
  rw [cutSources, if_neg (by omega), hm, hb, hd]

/-- The directive of a payload from its sources, or the first fault in them. -/
def readSources (raw label source : Text) (options? : Option Text) : Except Fault Directive := do
  let gs ← (globs source).mapError (.invalidGlobs raw)
  let o ← match options? with
    | none => .ok Options.default
    | some options => (Payload.options options).mapError (.invalidOptions raw)
  .ok ⟨label, gs, o⟩

theorem parse_of_cut {raw : Text} (h : Cut (normalizeQuotes raw) front source options?) :
    parse raw = match label? front with
      | none => .error (.missingLabel raw)
      | some label => readSources raw label source options? := by
  cases h with
  | one hp hc =>
    have hcut : cutSources (front ++ ',' :: source) front.length front.length = (source, none) := by
      simp [cutSources]
    rw [parse, hc]
    simp only [List.head?_cons, List.getLast?_singleton, hp, List.take_left, hcut]
    rfl
  | more hp hh hl =>
    rw [parse, hh, hl]
    simp only [hp, List.take_left, cutSources_of_lengths]
    rfl

theorem parse_of_no_comma {raw : Text} (h : structuralCommas (normalizeQuotes raw) = []) :
    parse raw = .error (.missingLabel raw) := by
  rw [parse, h]
  rfl

theorem parse_of_isFront {raw : Text} (h : Cut (normalizeQuotes raw) front source options?)
    (hf : IsFront front label) : parse raw = readSources raw label source options? := by
  rw [parse_of_cut h, (label?_eq_some_iff h.passes_front).mpr hf]

/-- The options of a payload, whether they are there or left out. -/
def GivesOptions : Option Text → Options → Prop
  | none, o => o = .default
  | some options, o => IsOptions options o

section Sources
variable {raw : Text}

theorem readSources_of_not_isGlobs (label : Text) (options? : Option Text)
    (h : ¬ ∃ gs, IsGlobs source gs) :
    ∃ reason, readSources raw label source options? = .error (.invalidGlobs raw reason) := by
  cases hg : globs source with
  | ok gs => exact absurd ⟨gs, globs_eq_ok_iff.mp hg⟩ h
  | error reason =>
    refine ⟨reason, ?_⟩
    rw [readSources, hg]
    rfl

theorem readSources_of_not_isOptions {options : Text} (label : Text) (hg : IsGlobs source gs)
    (h : ¬ ∃ o, IsOptions options o) :
    ∃ reason, readSources raw label source (some options) =
      .error (.invalidOptions raw reason) := by
  cases ho : Payload.options options with
  | ok o => exact absurd ⟨o, options_eq_ok_iff.mp ho⟩ h
  | error reason =>
    refine ⟨reason, ?_⟩
    rw [readSources, globs_eq_ok_iff.mpr hg]
    simp only [ho]
    rfl

theorem readSources_of_givesOptions {o : Options} (label : Text) (hg : IsGlobs source gs)
    (ho : GivesOptions options? o) :
    readSources raw label source options? = .ok ⟨label, gs, o⟩ := by
  rw [readSources, globs_eq_ok_iff.mpr hg]
  cases options? with
  | none =>
    obtain rfl := ho
    rfl
  | some options =>
    simp only [options_eq_ok_iff.mpr ho]
    rfl

end Sources

/-- Something with a label stands in front of the first comma of a payload. -/
def HasLabel (payload : Text) : Prop :=
  ∃ front label source options?, Cut payload front source options? ∧ IsFront front label

/-- What a payload is found to be, with the reason. -/
inductive Verdict (raw : Text) : Except Fault Directive → Prop
  | unlabelled : ¬ HasLabel (normalizeQuotes raw) → Verdict raw (.error (.missingLabel raw))
  | directive {front label source : Text} {options? : Option Text} {gs : List Text} {o : Options} :
    Cut (normalizeQuotes raw) front source options? → IsFront front label → IsGlobs source gs →
    GivesOptions options? o → Verdict raw (.ok ⟨label, gs, o⟩)
  | globs {front label source : Text} {options? : Option Text} (reason : Text) :
    Cut (normalizeQuotes raw) front source options? → IsFront front label →
    (¬ ∃ gs, IsGlobs source gs) → Verdict raw (.error (.invalidGlobs raw reason))
  | options {front label source options : Text} (reason : Text) :
    Cut (normalizeQuotes raw) front source (some options) → IsFront front label →
    (∃ gs, IsGlobs source gs) → (¬ ∃ o, IsOptions options o) →
    Verdict raw (.error (.invalidOptions raw reason))

section Verdict
variable {raw : Text}

theorem verdict_of_isFront (h : Cut (normalizeQuotes raw) front source options?)
    (hf : IsFront front label) : Verdict raw (parse raw) := by
  rw [parse_of_isFront h hf]
  by_cases hg : ∃ gs, IsGlobs source gs
  · obtain ⟨gs, hg⟩ := hg
    by_cases ho : ∃ o, GivesOptions options? o
    · obtain ⟨o, ho⟩ := ho
      rw [readSources_of_givesOptions label hg ho]
      exact .directive h hf hg ho
    · cases options? with
      | none => exact absurd ⟨.default, rfl⟩ ho
      | some options =>
        obtain ⟨reason, hr⟩ := readSources_of_not_isOptions label hg ho
        exact hr ▸ .options reason h hf ⟨gs, hg⟩ ho
  · obtain ⟨reason, hr⟩ := readSources_of_not_isGlobs label options? hg
    exact hr ▸ .globs reason h hf hg

theorem parse_of_not_hasLabel (h : ¬ HasLabel (normalizeQuotes raw)) :
    parse raw = .error (.missingLabel raw) := by
  by_cases hn : structuralCommas (normalizeQuotes raw) = []
  · exact parse_of_no_comma hn
  · obtain ⟨front, source, options?, hc⟩ := exists_cut hn
    cases hl : label? front with
    | none => rw [parse_of_cut hc, hl]
    | some label =>
      exact absurd ⟨_, _, _, _, hc, (label?_eq_some_iff hc.passes_front).mp hl⟩ h

theorem verdict_parse (raw : Text) : Verdict raw (parse raw) := by
  by_cases h : HasLabel (normalizeQuotes raw)
  · obtain ⟨_, _, _, _, hc, hf⟩ := h
    exact verdict_of_isFront hc hf
  · rw [parse_of_not_hasLabel h]
    exact .unlabelled h

end Verdict

theorem isPayload_iff : IsPayload payload d ↔ ∃ front source options?,
    Cut payload front source options? ∧ IsFront front d.label ∧ IsGlobs source d.globs ∧
      GivesOptions options? d.options := by
  constructor
  · intro h
    cases h with
    | @short front source label gs hf hg =>
      exact ⟨front, source, none, .one rfl (structuralCommas_of_two hf.passes hg.passes),
        hf, hg, rfl⟩
    | @long front source options label gs o hf hg ho =>
      have hc := structuralCommas_of_three hf.passes hg.passes ho.passes
      exact ⟨front, source, some options, .more rfl (by rw [hc]; rfl) (by rw [hc]; rfl), hf, hg, ho⟩
  · rintro ⟨front, source, options?, hc, hf, hg, ho⟩
    obtain ⟨label, gs, o⟩ := d
    cases hc with
    | one hp _ =>
      obtain rfl := ho
      exact hp ▸ .short hf hg
    | more hp _ _ => exact hp ▸ .long hf hg ho

theorem parse_eq_ok_iff {raw : Text} : parse raw = .ok d ↔ IsPayload (normalizeQuotes raw) d := by
  rw [isPayload_iff]
  constructor
  · intro h
    have hv := verdict_parse raw
    rw [h] at hv
    cases hv with
    | directive hc hf hg ho => exact ⟨_, _, _, hc, hf, hg, ho⟩
  · rintro ⟨front, source, options?, hc, hf, hg, ho⟩
    rw [parse_of_isFront hc hf, readSources_of_givesOptions d.label hg ho]

/-- Exactly the payloads of the grammar are read. A refusal names the first part that is amiss: the
label, the source of the globs between the first and the last separating comma, or the options. -/
theorem parse_exact (raw : Text) :
    (∀ d, parse raw = .ok d ↔ IsPayload (normalizeQuotes raw) d) ∧
    (parse raw = .error (.missingLabel raw) ↔ ¬ HasLabel (normalizeQuotes raw)) ∧
    ((∃ reason, parse raw = .error (.invalidGlobs raw reason)) ↔
      ∃ front label source options?, Cut (normalizeQuotes raw) front source options? ∧
        IsFront front label ∧ ¬ ∃ gs, IsGlobs source gs) ∧
    ((∃ reason, parse raw = .error (.invalidOptions raw reason)) ↔
      ∃ front label source options, Cut (normalizeQuotes raw) front source (some options) ∧
        IsFront front label ∧ (∃ gs, IsGlobs source gs) ∧ ¬ ∃ o, IsOptions options o) := by
  have hv := verdict_parse raw
  refine ⟨fun d => parse_eq_ok_iff, ⟨fun h => ?_, parse_of_not_hasLabel⟩, ⟨?_, ?_⟩, ?_, ?_⟩
  · rw [h] at hv
    cases hv with
    | unlabelled hn => exact hn
  · rintro ⟨reason, h⟩
    rw [h] at hv
    cases hv with
    | globs _ hc hf hn => exact ⟨_, _, _, _, hc, hf, hn⟩
  · rintro ⟨front, label, source, options?, hc, hf, hn⟩
    rw [parse_of_isFront hc hf]
    exact readSources_of_not_isGlobs label options? hn
  · rintro ⟨reason, h⟩
    rw [h] at hv
    cases hv with
    | options _ hc hf hg hn => exact ⟨_, _, _, _, hc, hf, hg, hn⟩
  · rintro ⟨front, label, source, options, hc, hf, ⟨gs, hg⟩, ho⟩
    rw [parse_of_isFront hc hf]
    exact readSources_of_not_isOptions label hg ho

end SourceMarks.Payload
