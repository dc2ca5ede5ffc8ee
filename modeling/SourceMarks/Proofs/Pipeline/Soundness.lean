import SourceMarks.Proofs.Check.Agreement
import SourceMarks.Proofs.Directive.Payload
import SourceMarks.Proofs.Expansion.Files
import SourceMarks.Proofs.Marker.Separate
import SourceMarks.Proofs.Pipeline.Composition

/-!
What a check says about a run. Main statement: after a check without errors both transforms can be
run one after the other, unless a load marker stands on the line behind a cache marker.
-/
namespace SourceMarks.Pipeline
open Marker
variable {m : Matcher} {text token u : Text} {e : Fault}

theorem noCache_payloads_layout {ps : List Part} {onLoad : Form → Text}
    (h : noCache.pieces (layout onLoad Form.written ps) = cachePieces onLoad ps) :
    noCache.payloads (layout onLoad Form.written ps) = ps.filterMap Part.cachePayload? := by
  rw [payloads, h, filterMap_cachePieces]

/-- Expansion leaves the lines behind cache markers as they are, if no load marker stands there. -/
theorem noCache_payloads_of_expand (hu : Expansion.expand m text = .ok u)
    (hn : ∀ p ∈ noCache.payloads text, load.payloads p = []) :
    noCache.payloads u = noCache.payloads text := by
  obtain ⟨-, hr⟩ := Expansion.expand_eq_ok_iff.mp hu
  obtain ⟨files, hfiles, rfl⟩ := replace_eq_ok_iff.mp hr
  have hlast : ∀ p ∈ load.payloads text, p.getLast? ≠ some '(' := by
    intro p hp hl
    obtain ⟨d, names, hd, -, -⟩ := Expansion.rendered_eq_ok_iff.mp (hfiles p hp)
    have hclose := Payload.closes_of_ok hd hl
    revert hclose
    decide
  obtain ⟨ps, rfl, hps⟩ := exists_separate hn hlast
  have hpieces := load_pieces_source hps
  have hquoted : ∀ f, .load f ∈ ps →
      Text.Quoted (files f.payload) ∧ noCache.Clear (files f.payload) [] := by
    intro f hf
    have hp : f.payload ∈ load.payloads (source ps) := by
      rw [payloads, hpieces, filterMap_loadPieces]
      exact List.mem_filterMap.mpr ⟨.load f, hf, rfl⟩
    obtain ⟨d, names, -, -, hname⟩ := Expansion.rendered_eq_ok_iff.mp (hfiles _ hp)
    rw [hname]
    exact ⟨Expansion.quoted_renderFiles names, Expansion.clear_renderFiles names⟩
  rw [hpieces, fill_loadPieces, noCache_payloads_layout (cache_pieces_layout hps hquoted)]
  exact (noCache_payloads_layout (cache_pieces_source hps)).symm

theorem expand_of_faults_eq_nil (h : Check.faults (some m) text = []) :
    ∃ u, Expansion.expand m text = .ok u := by
  cases hu : Expansion.expand m text with
  | ok u => exact ⟨u, rfl⟩
  | error e =>
    have he := Check.mem_faults_of_expand hu
    simp [h] at he

theorem stamp_of_faults_eq_nil {matcher : Option Matcher} (h : Check.faults matcher text = [])
    (token : Text) :
    ∃ w, Version.stamp token text = .ok w := by
  cases hw : Version.stamp token text with
  | ok w => exact ⟨w, rfl⟩
  | error e =>
    have he := Check.mem_faults_of_stamp matcher hw
    simp [h] at he

/-- Whether versions can be put into a text depends on the lines behind its cache markers only. -/
theorem stamp_congr {w : Text} (h : noCache.payloads u = noCache.payloads text)
    (hw : Version.stamp token text = .ok w) : ∃ v, Version.stamp token u = .ok v := by
  obtain ⟨new, hn, -⟩ := Version.stamp_eq_ok_iff.mp hw
  rw [← h] at hn
  exact ⟨_, Version.stamp_eq_ok_iff.mpr ⟨new, hn, rfl⟩⟩

theorem unversionable_of_stamp (h : Version.stamp token u = .error e) :
    ∃ target, e = .unversionable target := by
  obtain ⟨p, -, hp⟩ := replace_eq_error (g := fun p => Version.version p token) h
  have hc := Version.version_eq_error_iff.mp hp
  simp only [Version.classify] at hc
  split at hc
  · cases hc
  · split at hc
    · cases hc
    · exact ⟨_, (Except.error.inj hc).symm⟩

theorem apply_load_noCache (m : Matcher) (token text : Text) :
    Chain.apply [.load m, .noCache token] text =
      Expansion.expand m text >>= Version.stamp token := by
  change (Expansion.expand m text >>= fun u => Version.stamp token u >>= pure) = _
  simp only [bind_pure]

/-- After a check without errors the chain of both transforms succeeds, or it fails at a target that
cannot be versioned and a load marker stands on a line behind a cache marker. -/
theorem process_of_checked (file : RawPath) (text token : Text) (m : Matcher) (f : SourceFile)
    (hf : f.contents = .buffer (Text.encode text))
    (hc : (Check.checkText file text (some m)).errors = 0) :
    (∃ g, Chain.process [.load m, .noCache token] f = .ok g) ∨
      (∃ target, Chain.process [.load m, .noCache token] f = .error (.unversionable target)) ∧
        ∃ o ∈ noCache.scan text, load.scan o.payload ≠ [] := by
  have hfaults : Check.faults (some m) text = [] := by
    rw [(Check.records_checkText file text (some m)).count] at hc
    exact List.length_eq_zero_iff.mp hc
  obtain ⟨u, hu⟩ := expand_of_faults_eq_nil hfaults
  obtain ⟨w, hw⟩ := stamp_of_faults_eq_nil hfaults token
  have hp : Chain.process [.load m, .noCache token] f =
      (Version.stamp token u).map fun v => { f with contents := .buffer (Text.encode v) } := by
    rw [process_encoded _ hf, apply_load_noCache, hu]
    rfl
  rw [hp]
  cases hv : Version.stamp token u with
  | ok v => exact Or.inl ⟨_, rfl⟩
  | error e =>
    obtain ⟨target, rfl⟩ := unversionable_of_stamp hv
    refine Or.inr ⟨⟨target, rfl⟩, ?_⟩
    by_contra hn
    push Not at hn
    have hp : ∀ p ∈ noCache.payloads text, load.payloads p = [] := by
      intro p hp
      rw [← map_payload_scan] at hp
      obtain ⟨o, ho, rfl⟩ := List.mem_map.mp hp
      rw [← map_payload_scan, hn o ho, List.map_nil]
    obtain ⟨v, hv'⟩ := stamp_congr (noCache_payloads_of_expand hu hp) hw
    rw [hv] at hv'
    cases hv'

/-- A matcher with the same file for all globs, which has neither an extension nor a folder. -/
def readme : Matcher := Matcher.constant .empty ⟨[]⟩ ["README"]

/-- A load marker behind a cache marker. -/
def loadTarget : Text := "//@NoCache()\n[//@Load(a, ['README'])]"

theorem check_loadTarget :
    (Check.checkText (Path.raw ⟨"page.js"⟩) loadTarget (some readme)).errors = 0 := by
  decide +kernel

/-- The load marker itself counts as a path, but the file that takes its place does not. -/
theorem not_process_of_checked :
    ¬ ∀ (file : RawPath) (text token : Text) (m : Matcher) (f : SourceFile),
      f.contents = .buffer (Text.encode text) →
        (Check.checkText file text (some m)).errors = 0 →
          ∃ g, Chain.process [.load m, .noCache token] f = .ok g := by
  intro h
  obtain ⟨g, hg⟩ := h (Path.raw ⟨"page.js"⟩) loadTarget ['7'] readme
    ⟨Path.raw ⟨"page.js"⟩, ⟨[]⟩, .buffer (Text.encode loadTarget)⟩ rfl check_loadTarget
  have hu : Expansion.expand readme loadTarget >>= Version.stamp ['7'] =
      .error (.unversionable "[\"README\"]") := by decide +kernel
  rw [process_encoded _ rfl, apply_load_noCache, hu] at hg
  cases hg

theorem process_of_checked_loadTarget :
    let f : SourceFile := ⟨Path.raw ⟨"page.js"⟩, ⟨[]⟩, .buffer (Text.encode loadTarget)⟩
    (∃ g, Chain.process [.load readme, .noCache ['7']] f = .ok g) ∨
      (∃ target, Chain.process [.load readme, .noCache ['7']] f =
        .error (.unversionable target)) ∧
        ∃ o ∈ noCache.scan loadTarget, load.scan o.payload ≠ [] :=
  process_of_checked (Path.raw ⟨"page.js"⟩) loadTarget ['7'] readme _ rfl check_loadTarget

end SourceMarks.Pipeline
