import SourceMarks.Check.Annotations
import SourceMarks.Proofs.Version.Stamped

/-!
Texts of which a check does not warn that a cache marker has no target. Each marker in them is that
of an occurrence, so a stamped text has none left.
-/
namespace SourceMarks.Check
open Marker
variable {file : RawPath} {text token out p : Text} {m : Option Matcher} {f : Form}

/-- A form holds its own marker and those in its payload. -/
theorem countOf_written (h : IsCache f) :
    1 + Text.countOf bareNoCache f.payload ≤ Text.countOf bareNoCache f.written := by
  have hone : Text.countOf bareNoCache bareNoCache = 1 := by decide
  obtain ⟨ending, hw⟩ : ∃ ending, f.written = bareNoCache ++ (ending ++ f.payload) := by
    cases h.written with
    | inl hw => exact ⟨['\n'], hw⟩
    | inr hw => exact ⟨['\r', '\n'], hw⟩
  have hbehind := Text.countOf_add_le bareNoCache ending f.payload
  have hall := Text.countOf_add_le bareNoCache bareNoCache (ending ++ f.payload)
  rw [hw]
  omega

theorem length_payloads_le (text : Text) :
    (noCache.payloads text).length ≤ Text.countOf bareNoCache text := by
  induction text using piece_induction (m := noCache) with
  | nil => simp [payloads, pieces_nil]
  | plain c r hc ih =>
    have hr := Text.countOf_add_le bareNoCache [c] r
    rw [List.singleton_append] at hr
    rw [payloads_plain hc]
    omega
  | form f r hf ih =>
    have hw := countOf_written (noCacheForm?_eq_some_iff.mp hf).1
    have hr := Text.countOf_add_le bareNoCache f.written r
    rw [payloads_form hf, List.length_cons]
    omega

/-- A marker in a payload is one too many. -/
theorem length_payloads_lt (hp : p ∈ noCache.payloads text) (h : bareNoCache <:+: p) :
    (noCache.payloads text).length < Text.countOf bareNoCache text := by
  induction text using piece_induction (m := noCache) with
  | nil => simp [payloads, pieces_nil] at hp
  | plain c r hc ih =>
    rw [payloads_plain hc] at hp ⊢
    have hi := ih hp
    have hr := Text.countOf_add_le bareNoCache [c] r
    rw [List.singleton_append] at hr
    omega
  | form f r hf ih =>
    have hw := countOf_written (noCacheForm?_eq_some_iff.mp hf).1
    have hr := Text.countOf_add_le bareNoCache f.written r
    rw [payloads_form hf] at hp ⊢
    rw [List.length_cons]
    cases List.mem_cons.mp hp with
    | inl hp =>
      have hpos := Text.countOf_pos (by decide) (hp ▸ h)
      have hle := length_payloads_le r
      omega
    | inr hp =>
      have hi := ih hp
      omega

/-- Without the warning there are no more markers than occurrences. -/
theorem countOf_le_of_no_warning
    (h : ∀ i ∈ (checkText file text m).issues, i.code ≠ "W002".toList) :
    Text.countOf bareNoCache text ≤ (noCache.scan text).length := by
  by_contra hlt
  rw [Nat.not_le] at hlt
  rw [checkText] at h
  simp only [checkDangling, if_pos hlt, CheckResult.addWarning] at h
  exact h _ (List.mem_append_right _ (List.mem_singleton_self _)) rfl

/-- If a check warns of no marker without a target, then a stamped text has no cache marker with a
target left, stamping it again with whatever version changes nothing, and it has lost one line break
for each marker. -/
theorem stamp_stamped (hcheck : ∀ i ∈ (checkText file text m).issues, i.code ≠ "W002".toList)
    (hslash : '/' ∉ token) (hline : '\n' ∉ token) (h : Version.stamp token text = .ok out) :
    noCache.scan out = [] ∧ (∀ again, Version.stamp again out = .ok out) ∧
      out.count '\n' + (noCache.scan text).length = text.count '\n' := by
  obtain ⟨new, hnew, rfl⟩ := Version.stamp_eq_ok_iff.mp h
  have hle := countOf_le_of_no_warning hcheck
  have hlength : (noCache.scan text).length = (noCache.payloads text).length := by
    rw [← map_payload_scan, List.length_map]
  have hbare : ∀ p ∈ noCache.payloads text, ¬ bareNoCache <:+: p := by
    intro p hp hi
    have hlt := length_payloads_lt hp hi
    omega
  have hnone : noCache.payloads (fill new (noCache.pieces text)) = [] :=
    Version.payloads_eq_nil_of_not_infix fun w hw =>
      Version.not_markerLine_infix_stamped hslash hnew hbare hw
  refine ⟨?_, fun again => ?_, ?_⟩
  · rw [← map_payload_scan] at hnone
    exact List.map_eq_nil_iff.mp hnone
  · refine Version.stamp_eq_ok_iff.mpr ⟨id, by simp [hnone], ?_⟩
    rw [fill_of_no_payload id hnone, written_pieces]
  · rw [hlength]
    exact Version.count_stamped hline hnew

/-- The beginning of a marker in front of another one, with the end of a marker in its target. -/
def seam : Text := "//@NoC//@NoCache()\nache() a.js\n"

def seamStamped : Text := "//@NoCache() a.js?v=1\n"

/-- Two halves of a marker that meet make one, but no target follows it. -/
theorem stamp_stamped_seam :
    (∀ i ∈ (checkText ⟨[]⟩ seam none).issues, i.code ≠ "W002".toList) ∧
    Version.stamp ['1'] seam = .ok seamStamped ∧
    noCache.scan seamStamped = [] ∧
    (∀ again, Version.stamp again seamStamped = .ok seamStamped) ∧
    seamStamped.count '\n' + (noCache.scan seam).length = seam.count '\n' := by
  have hissues : (checkText ⟨[]⟩ seam none).issues = [] := by decide +kernel
  have hcheck : ∀ i ∈ (checkText ⟨[]⟩ seam none).issues, i.code ≠ "W002".toList := by
    simp [hissues]
  have h : Version.stamp ['1'] seam = .ok seamStamped := by decide +kernel
  exact ⟨hcheck, h, stamp_stamped hcheck (by decide) (by decide) h⟩

end SourceMarks.Check
