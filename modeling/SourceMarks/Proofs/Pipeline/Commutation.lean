import SourceMarks.Proofs.Expansion.Exact
import SourceMarks.Proofs.Expansion.Files
import SourceMarks.Proofs.Marker.Layout
import SourceMarks.Proofs.Version.Target

/-!
The two transforms in either order. Main statement: where only blanks stand before the cache markers
on their lines and no load marker opens on the lines behind them, versions may be put in first.
-/
namespace SourceMarks.Pipeline
open Marker
variable {m : Matcher} {text token before out : Text} {ps : List Part}
  {onLoad onCache : Form → Text}

theorem apart_of_scan (hindent : ∀ o ∈ noCache.scan text, Indented (text.upTo o.start))
    (hpayload : ∀ o ∈ noCache.scan text, ¬ loadOpening <:+: o.payload) :
    Apart [] (noCache.pieces text) := by
  intro ps f qs h
  obtain ⟨o, ho, hp, hs⟩ := exists_occurrence h
  rw [List.nil_append, ← hs, ← hp]
  exact ⟨hindent o ho, hpayload o ho⟩

/-- Expanding parts puts the same files into them whatever stands for their cache forms. -/
theorem expand_layout_eq_ok_iff (h : Laid before ps) (he : ¬ emptyLoad <:+: source ps)
    (hc : ∀ f, .cache f ∈ ps → ¬ loadOpening <:+: onCache f) :
    Expansion.expand m (layout Form.written onCache ps) = .ok out ↔
      (∃ r, Registry.ofText (source ps) = .ok r) ∧
        ∃ files : Text → Text,
          (∀ p ∈ ps.filterMap Part.loadPayload?, Expansion.rendered m p = .ok (files p)) ∧
            out = layout (fun f => files f.payload) onCache ps := by
  have hpieces := load_pieces_layout h hc
  have hpayloads : load.payloads (layout Form.written onCache ps) =
      ps.filterMap Part.loadPayload? := by
    rw [payloads, hpieces, filterMap_loadPieces]
  have hsource : load.payloads (source ps) = ps.filterMap Part.loadPayload? := by
    rw [payloads, source, load_pieces_layout h fun f => h.not_loadOpening_infix,
      filterMap_loadPieces]
  have he' : ¬ emptyLoad <:+: layout Form.written onCache ps := fun hi =>
    he (emptyLoad_infix_of_layout h hc hi)
  rw [Expansion.expand_eq_ok_iff, replace_eq_ok_iff, hpayloads, hpieces,
    Registry.ofText_congr he' he (hpayloads.trans hsource.symm)]
  simp only [fill_loadPieces]

theorem stamp_layout_eq_ok_iff
    (h : noCache.pieces (layout onLoad Form.written ps) = cachePieces onLoad ps) :
    Version.stamp token (layout onLoad Form.written ps) = .ok out ↔
      ∃ target : Text → Text,
        (∀ p ∈ ps.filterMap Part.cachePayload?, Version.version p token = .ok (target p)) ∧
          out = layout onLoad (fun f => target f.payload) ps := by
  rw [Version.stamp_eq_ok_iff, payloads, h, filterMap_cachePieces]
  simp only [fill_cachePieces]

/-- If versions can be put into the expansion of a text, they can be put into the text itself, and
expanding it then gives the same. -/
theorem expand_stamp_comm (m : Matcher) (text token u v : Text)
    (htoken : ∀ c ∈ token, Version.isTokenChar c = true)
    (hindent : ∀ o ∈ noCache.scan text, Indented (text.upTo o.start))
    (hpayload : ∀ o ∈ noCache.scan text, ¬ loadOpening <:+: o.payload)
    (hu : Expansion.expand m text = .ok u) (hv : Version.stamp token u = .ok v) :
    ∃ w, Version.stamp token text = .ok w ∧ Expansion.expand m w = .ok v := by
  have he := Expansion.not_empty_of_expand hu
  obtain ⟨ps, rfl, hps⟩ := exists_laid (apart_of_scan hindent hpayload)
  have hwritten : ∀ f, .cache f ∈ ps → ¬ loadOpening <:+: f.written :=
    fun f => hps.not_loadOpening_infix
  obtain ⟨hr, files, hfiles, rfl⟩ := (expand_layout_eq_ok_iff hps he hwritten).mp hu
  have hquoted : ∀ f, .load f ∈ ps →
      Text.Quoted (files f.payload) ∧ noCache.Clear (files f.payload) [] := by
    intro f hf
    have hp := hfiles f.payload (List.mem_filterMap.mpr ⟨.load f, hf, rfl⟩)
    obtain ⟨d, names, -, -, hn⟩ := Expansion.rendered_eq_ok_iff.mp hp
    rw [hn]
    exact ⟨Expansion.quoted_renderFiles names, Expansion.clear_renderFiles names⟩
  obtain ⟨target, htarget, rfl⟩ :=
    (stamp_layout_eq_ok_iff (cache_pieces_layout hps.separate hquoted)).mp hv
  have hversion : ∀ f, .cache f ∈ ps → ¬ loadOpening <:+: target f.payload := by
    intro f hf
    have hp := htarget f.payload (List.mem_filterMap.mpr ⟨.cache f, hf, rfl⟩)
    exact Version.not_loadOpening_infix_version htoken (hps.isCache hf).2 hp
  refine ⟨layout Form.written (fun f => target f.payload) ps, ?_, ?_⟩
  · exact (stamp_layout_eq_ok_iff (cache_pieces_source hps.separate)).mpr ⟨target, htarget, rfl⟩
  · exact (expand_layout_eq_ok_iff hps he hversion).mpr ⟨hr, files, hfiles, rfl⟩

/-- A matcher with the same file for all globs, whose name is a cache marker. -/
def oneFile : Matcher := Matcher.constant .empty ⟨[]⟩ ["//@NoCache()"]

/-- A cache marker with its line, both indented, and a load marker on a line of its own. -/
def page : Text := "\t//@NoCache()\n\tload('./a.js') // x\n[//@Load(all, ['*'])\n];"

def pageFilled : Text := "\t//@NoCache()\n\tload('./a.js') // x\n[\"//@NoCache()\"\n];"

def pageStamped : Text := "\tload('./a.js?v=7') // x\n[\"//@NoCache()\"\n];"

theorem expand_stamp_comm_page :
    Expansion.expand oneFile page = .ok pageFilled ∧
      Version.stamp ['7'] pageFilled = .ok pageStamped ∧
        ∃ w, Version.stamp ['7'] page = .ok w ∧ Expansion.expand oneFile w = .ok pageStamped := by
  have htoken : ∀ c ∈ ['7'], Version.isTokenChar c = true := List.all_eq_true.mp rfl
  have hindent : ∀ o ∈ noCache.scan page, Indented (page.upTo o.start) := by decide +kernel
  have hpayload : ∀ o ∈ noCache.scan page, ¬ loadOpening <:+: o.payload := by decide +kernel
  have hu : Expansion.expand oneFile page = .ok pageFilled := by decide +kernel
  have hv : Version.stamp ['7'] pageFilled = .ok pageStamped := by decide +kernel
  exact ⟨hu, hv, expand_stamp_comm oneFile page ['7'] pageFilled pageStamped htoken hindent
    hpayload hu hv⟩

end SourceMarks.Pipeline
