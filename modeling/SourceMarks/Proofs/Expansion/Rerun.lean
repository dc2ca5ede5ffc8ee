import SourceMarks.Proofs.Expansion.Exact
import SourceMarks.Proofs.Expansion.Files

/-!
Expanding a text again. Main statement: where no file name opens a load marker, the output has no
load marker left, with or without a payload, and every matcher returns it as it is.
-/
namespace SourceMarks.Expansion
open Marker
variable {new : Text → Text} {x r : Text}

/-- A text goes on with the payload of a load marker and its closing parenthesis. -/
def Closes (t : Text) : Prop := ∃ p, (∀ c ∈ p, inPayload c = true) ∧ p ++ [')'] <+: t

/-- A load marker begins the text, with a payload or without. -/
def Opens (t : Text) : Prop := ∃ r, t = loadOpening ++ r ∧ Closes r

theorem opens_of_emptyLoad {t : Text} (h : emptyLoad <+: t) : Opens t := by
  obtain ⟨r, rfl⟩ := h
  exact ⟨')' :: r, rfl, [], by simp, r, rfl⟩

theorem opens_of_form {t : Text} {f : Form} (h : loadForm? t = some f) : Opens t := by
  obtain ⟨hf, r, rfl⟩ := loadForm?_eq_some_iff.mp h
  refine ⟨f.payload ++ [')'] ++ r, ?_, f.payload, hf.closed, r, rfl⟩
  rw [hf.written, List.append_assoc]

theorem emptyLoad_or_form_of_opens {t : Text} (h : Opens t) :
    emptyLoad <+: t ∨ ∃ f, loadForm? t = some f := by
  obtain ⟨-, rfl, p, hp, r, rfl⟩ := h
  cases p with
  | nil => exact Or.inl ⟨r, rfl⟩
  | cons c p =>
    refine Or.inr ⟨⟨loadOpening ++ ((c :: p) ++ [')']), c :: p⟩, loadForm?_eq_some_iff.mpr ?_⟩
    exact ⟨⟨List.cons_ne_nil c p, hp, rfl⟩, r, by simp⟩

/-- If filled-in text closes a payload, the text before the filling did so, perhaps earlier. -/
theorem closes_of_fill (h : Closes (fill new (load.pieces r))) : Closes r := by
  induction r using piece_induction (m := load) with
  | nil =>
    rw [pieces_nil] at h
    exact h
  | plain c r hc ih =>
    rw [pieces_plain hc, fill_plain] at h
    obtain ⟨p, hp, hr⟩ := h
    cases p with
    | nil =>
      obtain ⟨rfl, -⟩ := List.cons_prefix_cons.mp hr
      exact ⟨[], by simp, r, rfl⟩
    | cons d p =>
      obtain ⟨rfl, ht⟩ := List.cons_prefix_cons.mp hr
      obtain ⟨q, hq, s, rfl⟩ := ih ⟨p, fun c hc => hp c (List.mem_cons_of_mem d hc), ht⟩
      refine ⟨d :: q, fun c hc => ?_, s, by simp⟩
      cases List.mem_cons.mp hc with
      | inl he => exact hp c (by simp [he])
      | inr hm => exact hq c hm
  | form f r hf ih =>
    -- the form itself closes the payload, whatever is filled in for it
    have hl := (loadForm?_eq_some_iff.mp hf).1
    refine ⟨loadOpening ++ f.payload, fun c hc => ?_, r, by simp [hl.written]⟩
    cases List.mem_append.mp hc with
    | inl ho => exact inPayload_loadOpening c ho
    | inr hp => exact hl.closed c hp

/-- The same behind a word without quotes, which no filling can complete: it begins with a quote. -/
theorem closes_behind_of_fill (hq : '"' ∉ x)
    (hnew : ∀ p ∈ load.payloads r, Text.Quoted (new p)) {s : Text}
    (h : fill new (load.pieces r) = x ++ s) (hs : Closes s) : ∃ s', r = x ++ s' ∧ Closes s' := by
  induction r using piece_induction (m := load) generalizing x with
  | nil =>
    rw [pieces_nil] at h
    obtain ⟨rfl, rfl⟩ := List.append_eq_nil_iff.mp h.symm
    exact ⟨[], rfl, hs⟩
  | plain c r hc ih =>
    cases x with
    | nil =>
      rw [List.nil_append] at h
      exact ⟨c :: r, rfl, closes_of_fill (h ▸ hs)⟩
    | cons d x =>
      rw [payloads_plain hc] at hnew
      rw [pieces_plain hc, fill_plain] at h
      obtain ⟨rfl, ht⟩ := List.cons.inj h
      obtain ⟨s', hr, hs'⟩ := ih (fun hm => hq (List.mem_cons_of_mem c hm)) hnew ht
      exact ⟨s', by rw [hr]; rfl, hs'⟩
  | form f r hf ih =>
    cases x with
    | nil =>
      rw [List.nil_append] at h
      exact ⟨f.written ++ r, rfl, closes_of_fill (h ▸ hs)⟩
    | cons d x =>
      rw [payloads_form hf] at hnew
      have hh := (hnew f.payload List.mem_cons_self).head
      rw [pieces_form hf, fill_form] at h
      have hd := congrArg List.head? h
      rw [List.head?_append, hh] at hd
      obtain rfl : '"' = d := by simpa using hd
      exact absurd List.mem_cons_self hq

theorem not_opens_of_plain {c : Char} (hc : load.form? (c :: r) = none)
    (he : ¬ emptyLoad <:+: c :: r) (hq : ∀ p ∈ load.payloads (c :: r), Text.Quoted (new p)) :
    ¬ Opens (fill new (load.pieces (c :: r))) := by
  intro ho
  obtain ⟨t, ht, hcl⟩ := ho
  obtain ⟨t', hr, hcl'⟩ := closes_behind_of_fill (by decide) hq ht hcl
  cases emptyLoad_or_form_of_opens ⟨t', hr, hcl'⟩ with
  | inl hp => exact he hp.isInfix
  | inr hf =>
    obtain ⟨f, hf⟩ := hf
    rw [form?, hf] at hc
    cases hc

/-- A load marker does not begin in a quoted text without its opening: the quote at the end of the
text is no part of the opening. -/
theorem not_opens_of_quoted {y : Text} (hq : Text.Quoted x) (hx : ¬ loadOpening <:+: x)
    (hn : y ≠ []) (hy : y <:+ x) (r : Text) : ¬ Opens (y ++ r) := by
  intro ho
  obtain ⟨t, ht, -⟩ := ho
  have hlast : y.getLast? = some '"' := by rw [Text.getLast?_of_suffix hn hy, hq.last]
  have hp : loadOpening <+: y := Text.prefix_of_last_not_mem hlast (by decide) ⟨t, ht.symm⟩
  exact hx (hp.isInfix.trans hy.isInfix)

/-- No load marker, with or without a payload, stands in a filled-in text. -/
theorem not_opens_of_fill (he : ¬ emptyLoad <:+: r)
    (hnew : ∀ p ∈ load.payloads r, Text.Quoted (new p) ∧ ¬ loadOpening <:+: new p) :
    ∀ s, s <:+ fill new (load.pieces r) → ¬ Opens s := by
  induction r using piece_induction (m := load) with
  | nil =>
    intro s hs ho
    rw [pieces_nil] at hs
    obtain rfl := List.suffix_nil.mp hs
    obtain ⟨r, hr, -⟩ := ho
    cases hr
  | plain c r hc ih =>
    intro s hs
    have hfirst := not_opens_of_plain hc he fun p hp => (hnew p hp).1
    rw [payloads_plain hc] at hnew
    rw [pieces_plain hc, fill_plain] at hs hfirst
    cases List.suffix_cons_iff.mp hs with
    | inl h => rwa [h]
    | inr h => exact ih (fun hi => he (List.infix_cons hi)) hnew s h
  | form f r hf ih =>
    intro s hs
    rw [payloads_form hf] at hnew
    obtain ⟨hq, hn⟩ := hnew f.payload List.mem_cons_self
    rw [pieces_form hf, fill_form] at hs
    cases Text.suffix_append_cases hs with
    | inl h =>
      have hnew' := fun p hp => hnew p (List.mem_cons_of_mem f.payload hp)
      exact ih (fun hi => he (List.infix_append_of_infix_right hi)) hnew' s h
    | inr h =>
      obtain ⟨y, hy, hsuf, rfl⟩ := h
      exact not_opens_of_quoted hq hn hy hsuf _

theorem not_loadOpening_infix_renderFiles {files : List Text}
    (h : ∀ name ∈ files, ¬ loadOpening <:+: name) : ¬ loadOpening <:+: renderFiles files := by
  intro hi
  obtain ⟨name, hm, hn⟩ := infix_of_infix_renderFiles (by decide) (by decide) hi
  exact h name hm (Json.infix_of_infix_escape (by decide) hn)

theorem scan_of_not_opens {t : Text} (h : ∀ s, s <:+ t → ¬ Opens s) : load.scan t = [] := by
  have hc : load.Clear t [] := by
    intro y _ hy
    cases hf : load.form? (y ++ []) with
    | none => rfl
    | some f =>
      rw [List.append_nil] at hf
      exact absurd (opens_of_form hf) (h y hy)
  have hp := pieces_append_of_clear hc
  rw [List.append_nil, pieces_nil, List.append_nil] at hp
  have hn : load.payloads t = [] := by
    rw [payloads, hp, filterMap_map_plain]
  rw [← map_payload_scan] at hn
  exact List.map_eq_nil_iff.mp hn

theorem expand_of_scan_eq_nil {m : Matcher} {t : Text} (hs : load.scan t = [])
    (he : ¬ emptyLoad <:+: t) : expand m t = .ok t := by
  have hp : load.payloads t = [] := by rw [← map_payload_scan, hs, List.map_nil]
  rw [expand_of_faultless he (by rw [hs]; exact faultless_nil)]
  refine replace_eq_ok_iff.mpr ⟨id, by simp [hp], ?_⟩
  rw [fill_of_no_payload id hp, written_pieces]

/-- If no name among the files of a text opens a load marker, then its expansion has no load marker
left, not even an empty one, and expanding it again changes nothing, whatever the matcher. -/
theorem expand_expanded (m : Matcher) (text out : Text)
    (hnames : ∀ o ∈ load.scan text, ∀ d files, Payload.parse o.payload = .ok d →
      d.resolve m = .ok files → ∀ name ∈ files, ¬ loadOpening <:+: name)
    (h : expand m text = .ok out) :
    load.scan out = [] ∧ ¬ emptyLoad <:+: out ∧ ∀ m' : Matcher, expand m' out = .ok out := by
  have he := not_empty_of_expand h
  obtain ⟨-, hr⟩ := expand_eq_ok_iff.mp h
  obtain ⟨new, hn, hout⟩ := replace_eq_ok_iff.mp hr
  have hnew : ∀ p ∈ load.payloads text, Text.Quoted (new p) ∧ ¬ loadOpening <:+: new p := by
    intro p hp
    obtain ⟨d, files, hd, hf, hnew⟩ := rendered_eq_ok_iff.mp (hn p hp)
    rw [← map_payload_scan] at hp
    obtain ⟨o, ho, rfl⟩ := List.mem_map.mp hp
    rw [hnew]
    exact ⟨quoted_renderFiles files,
      not_loadOpening_infix_renderFiles (hnames o ho d files hd hf)⟩
  have hopen : ∀ s, s <:+ out → ¬ Opens s := by
    rw [hout]
    exact not_opens_of_fill he hnew
  have hscan := scan_of_not_opens hopen
  have hempty : ¬ emptyLoad <:+: out := by
    intro hi
    obtain ⟨s, hp, hs⟩ := List.infix_iff_prefix_suffix.mp hi
    exact hopen s hs (opens_of_emptyLoad hp)
  exact ⟨hscan, hempty, fun m' => expand_of_scan_eq_nil hscan hempty⟩

def twoFiles : Matcher := Matcher.constant .empty ⟨[]⟩ ["a.js", "b\"/.js"]

/-- A load marker behind one that is not closed on its line. -/
def unclosed : Text := "x //@Load( \n[//@Load(all, ['*'])]"

def unclosedFilled : Text := "x //@Load( \n[\"a.js\",\n\"b\\\"/.js\"]"

theorem expand_expanded_unclosed : expand twoFiles unclosed = .ok unclosedFilled ∧
    load.scan unclosedFilled = [] ∧ ¬ emptyLoad <:+: unclosedFilled ∧
      ∀ m' : Matcher, expand m' unclosedFilled = .ok unclosedFilled := by
  have h : expand twoFiles unclosed = .ok unclosedFilled := by decide +kernel
  have hs : load.scan unclosed = [⟨load, "all, ['*']", 13, 32, 2⟩] := by decide +kernel
  have hp : Payload.parse "all, ['*']" = .ok ⟨"all", ["*"], .default⟩ := by decide +kernel
  have hr : Directive.resolve twoFiles ⟨"all", ["*"], .default⟩ = .ok ["a.js", "b\"/.js"] := rfl
  refine ⟨h, expand_expanded twoFiles unclosed unclosedFilled ?_ h⟩
  intro o ho d files hd hf
  rw [hs, List.mem_singleton] at ho
  subst ho
  cases hp.symm.trans hd
  cases hr.symm.trans hf
  decide +kernel

end SourceMarks.Expansion
