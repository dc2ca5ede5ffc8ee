import SourceMarks.Proofs.Directive.Grammar
import SourceMarks.Proofs.Directive.Registry
import SourceMarks.Proofs.Directive.Shelter
import SourceMarks.Proofs.Marker.Replacement

/-!
Directives written as load markers. Main statement: a text with one such marker on each line has the
registry of exactly these directives.
-/
namespace SourceMarks
open Marker

/-- What can be written as a label as it is. -/
structure IsLabel (label : Text) : Prop where
  nonempty : label ≠ []
  trimmed : label.trim = label
  plain : ∀ c ∈ label, c ∉ [',', '[', '\x7b', '"', '\'', ')', '\r', '\n']

instance (label : Text) : Decidable (IsLabel label) :=
  decidable_of_iff (label ≠ [] ∧ label.trim = label ∧
      label.all (· ∉ [',', '[', '\x7b', '"', '\'', ')', '\r', '\n']) = true)
    ⟨fun h => ⟨h.1, h.2.1, by simpa using h.2.2⟩,
      fun h => ⟨h.nonempty, h.trimmed, by simpa using h.plain⟩⟩

namespace Directive

/-- A directive as the payload of a load marker. -/
def payload (d : Directive) : Text :=
  d.label ++ [',', ' '] ++ Json.sheltered (.array (d.globs.map .string)) ++ [',', ' '] ++
    Json.sheltered d.options.toJson

/-- A directive as a load marker. -/
def encode (d : Directive) : Text := loadOpening ++ (d.payload ++ [')'])

/-- Directives as load markers, one on a line. -/
def encodeAll (ds : List Directive) : Text := Text.join ['\n'] (ds.map encode)

end Directive

namespace Text

theorem trim_blank_cons {c d : Char} (hc : isBlank c = false) (hd : isBlank d = false)
    (x : Text) : trim (' ' :: c :: (x ++ [d])) = c :: (x ++ [d]) := by
  have hs : isBlank ' ' = true := by decide
  have he := dropEnd_append_singleton hd (c :: x)
  simpa [trim, trimStart, trimEnd, hs, hc] using he

end Text

namespace Payload
variable {d : Directive}

theorem normalizeQuotes_of_not_mem {t : Text} (h : '\'' ∉ t) : normalizeQuotes t = t := by
  have ht : ∀ c ∈ t, (if c = '\'' then '"' else c) = c := by
    intro c hc
    have hn : c ≠ '\'' := fun he => h (he ▸ hc)
    rw [if_neg hn]
  rw [normalizeQuotes, List.map_congr_left ht, List.map_id']

theorem isGlobs_sheltered {ss : List Text} (h : ss ≠ []) :
    IsGlobs (' ' :: Json.sheltered (.array (ss.map .string))) ss := by
  have ht : Text.trim (' ' :: Json.sheltered (.array (ss.map .string))) =
      Json.sheltered (.array (ss.map .string)) := by
    rw [Json.sheltered_array]
    exact Text.trim_blank_cons (by decide) (by decide) _
  rw [IsGlobs, ht]
  exact ⟨h, Json.parse_of_reads (Json.reads_sheltered_strings 126 ss)⟩

theorem isOptions_sheltered (o : Options) : IsOptions (' ' :: Json.sheltered o.toJson) o := by
  have ht : Text.trim (' ' :: Json.sheltered o.toJson) = Json.sheltered o.toJson := by
    rw [Options.toJson, Json.sheltered_object]
    exact Text.trim_blank_cons (by decide) (by decide) _
  have hr := Json.parse_of_reads (Json.reads_sheltered_options 126 o)
  rw [← ht] at hr
  obtain ⟨base, posix⟩ := o
  cases base <;> exact ⟨_, hr, rfl, rfl⟩

theorem isFront_of_isLabel {label : Text} (h : IsLabel label) : IsFront label label := by
  have hp : ∀ c ∈ label, (c ≠ ',' ∧ c ≠ '"') ∧ c ≠ '[' ∧ c ≠ '\x7b' := by
    intro c hc
    have hm := h.plain c hc
    simp only [List.mem_cons, List.not_mem_nil, or_false, not_or] at hm
    exact ⟨⟨hm.1, hm.2.2.2.1⟩, hm.2.1, hm.2.2.1⟩
  exact ⟨unbroken_of_forall fun c hc => (hp c hc).1, fun c hc => (hp c hc).2, h.trimmed, h.nonempty⟩

theorem all_isTame_label {label : Text} (h : IsLabel label) :
    label.all Json.isTame = true := by
  rw [List.all_eq_true]
  intro c hc
  have hp := h.plain c hc
  simp only [List.mem_cons, List.not_mem_nil, or_false, not_or] at hp
  simp [Json.isTame, inPayload, inLine, hp]

theorem payload_eq : d.payload =
    d.label ++ ',' :: (' ' :: Json.sheltered (.array (d.globs.map .string)) ++
      ',' :: (' ' :: Json.sheltered d.options.toJson)) := by
  simp [Directive.payload]

theorem all_isTame_payload (h : IsLabel d.label) : d.payload.all Json.isTame = true := by
  simp only [Directive.payload, List.all_append, all_isTame_label h, Json.all_isTame_strings,
    Json.all_isTame_options]
  rfl

theorem parse_payload (h : IsLabel d.label) (hg : d.globs ≠ []) :
    parse d.payload = .ok d := by
  have hn : normalizeQuotes d.payload = d.payload := by
    refine normalizeQuotes_of_not_mem fun hq => ?_
    have ht := List.all_eq_true.mp (all_isTame_payload h) _ hq
    revert ht
    decide
  rw [parse_eq_ok_iff, hn, payload_eq]
  exact .long (isFront_of_isLabel h) (isGlobs_sheltered hg) (isOptions_sheltered d.options)

end Payload

namespace Directive
variable {d : Directive} {ds : List Directive}

theorem isLoad_encode (h : IsLabel d.label) : IsLoad ⟨d.encode, d.payload⟩ := by
  refine ⟨by simp [Payload.payload_eq], fun c hc => ?_, rfl⟩
  have ht := List.all_eq_true.mp (Payload.all_isTame_payload h) c hc
  rw [Json.isTame, Bool.and_eq_true] at ht
  exact ht.2

theorem payloads_encode (h : IsLabel d.label) (r : Text) :
    load.payloads (d.encode ++ r) = d.payload :: load.payloads r :=
  payloads_form (f := ⟨d.encode, d.payload⟩)
    (loadForm?_eq_some_iff.mpr ⟨isLoad_encode h, List.prefix_append _ r⟩)

theorem payloads_lines (h : ∀ d ∈ ds, IsLabel d.label) :
    load.payloads (ds.flatMap fun d => '\n' :: d.encode) = ds.map payload := by
  induction ds with
  | nil => rw [List.flatMap_nil, payloads, pieces_nil]; rfl
  | cons d ds ih =>
    rw [List.forall_mem_cons] at h
    have hn : load.form? ('\n' :: (d.encode ++ ds.flatMap fun d => '\n' :: d.encode)) = none := rfl
    rw [List.flatMap_cons, List.cons_append, payloads_plain hn, payloads_encode h.1, ih h.2,
      List.map_cons]

theorem payloads_encodeAll (h : ∀ d ∈ ds, IsLabel d.label) :
    load.payloads (encodeAll ds) = ds.map payload := by
  cases ds with
  | nil => rw [encodeAll, List.map_nil, Text.join, payloads, pieces_nil]; rfl
  | cons d ds =>
    rw [List.forall_mem_cons] at h
    rw [encodeAll, List.map_cons, Text.join_cons, List.flatMap_map, payloads_encode h.1]
    exact congrArg (d.payload :: ·) (payloads_lines h.2)

/-- The marker is closed right behind the options, and nowhere before. -/
theorem exists_encode_eq (h : IsLabel d.label) :
    ∃ x, d.encode = x ++ ['\x7d', ')'] ∧ ')' ∉ x := by
  obtain ⟨y, hy⟩ : ∃ y, d.payload = y ++ ['\x7d'] := by
    refine List.getLast?_eq_some_iff.mp ?_
    simp [Payload.payload_eq, Options.toJson, Json.sheltered_object, List.getLast?_append,
      List.getLast?_cons]
  refine ⟨loadOpening ++ y, by simp [encode, hy], fun hm => ?_⟩
  obtain hm | hm := List.mem_append.mp hm
  · exact absurd hm (by decide)
  · have hp := (isLoad_encode h).closed ')' (hy ▸ List.mem_append_left _ hm)
    exact absurd hp (by decide)

theorem not_emptyLoad_infix_encode (h : IsLabel d.label) : ¬ emptyLoad <:+: d.encode := by
  intro hi
  obtain ⟨x, hx, hn⟩ := exists_encode_eq h
  rw [hx] at hi
  have hb : ∀ c ∈ (['\x7d', ')'] : Text).head?, c ∉ emptyLoad := by simp [emptyLoad]
  obtain hi | hi := Text.infix_of_head_not_mem hb hi
  · exact hn (hi.subset (by decide))
  · exact absurd (hi.subset (by decide : 'L' ∈ emptyLoad)) (by decide)

theorem not_emptyLoad_infix_lines (h : ∀ d ∈ ds, IsLabel d.label) :
    ¬ emptyLoad <:+: ds.flatMap fun d => '\n' :: d.encode := by
  induction ds with
  | nil => decide
  | cons d ds ih =>
    rw [List.forall_mem_cons] at h
    intro hi
    have hb : ∀ c ∈ (ds.flatMap fun d => '\n' :: d.encode).head?, c ∉ emptyLoad := by
      cases ds with
      | nil => simp
      | cons d ds => simp [emptyLoad]
    rw [List.flatMap_cons] at hi
    obtain hi | hi := Text.infix_of_head_not_mem hb hi
    · exact not_emptyLoad_infix_encode h.1 (Text.infix_of_not_mem (a := ['\n']) (by decide) hi)
    · exact ih h.2 hi

theorem not_emptyLoad_infix_encodeAll (h : ∀ d ∈ ds, IsLabel d.label) :
    ¬ emptyLoad <:+: encodeAll ds := by
  cases ds with
  | nil => decide
  | cons d ds =>
    have hs : encodeAll (d :: ds) <:+ (d :: ds).flatMap fun d => '\n' :: d.encode :=
      ⟨['\n'], by rw [encodeAll, List.map_cons, Text.join_cons, List.flatMap_map]; rfl⟩
    exact fun hi => not_emptyLoad_infix_lines h (hi.trans hs.isInfix)

theorem directivesOf_encodeAll (h : ∀ d ∈ ds, IsLabel d.label) (hg : ∀ d ∈ ds, d.globs ≠ []) :
    directivesOf (load.scan (encodeAll ds)) = .ok ds := by
  change (load.scan (encodeAll ds)).mapM (Payload.parse ∘ Occurrence.payload) = _
  rw [← List.mapM_map, map_payload_scan, payloads_encodeAll h, List.mapM_map, mapM_eq_ok_iff]
  exact ⟨id, fun d hd => Payload.parse_payload (h d hd) (hg d hd), by simp⟩

end Directive

namespace Registry
variable {r : Registry}

/-- Directives with labels of their own are added to a registry in order. -/
theorem insertAll_of_directivesOf {os : List Occurrence} {ds : List Directive}
    (hd : directivesOf os = .ok ds) (hn : ((r.directives ++ ds).map Directive.label).Nodup) :
    ∃ r', insertAll r os = .ok r' ∧ r'.directives = r.directives ++ ds := by
  induction os generalizing r ds with
  | nil =>
    obtain rfl := Except.ok.inj hd
    exact ⟨r, rfl, by simp⟩
  | cons o os ih =>
    rw [directivesOf, List.mapM_cons] at hd
    obtain ⟨d, hp, hd⟩ := bind_eq_ok_iff.mp hd
    obtain ⟨ds, hds, hd⟩ := bind_eq_ok_iff.mp hd
    obtain rfl := Except.ok.inj hd
    rw [List.append_cons] at hn
    have hl : d.label ∉ r.directives.map Directive.label := by
      rw [List.map_append, List.map_append, List.append_assoc, List.nodup_append] at hn
      exact fun hm => hn.2.2 _ hm _ (by simp) rfl
    obtain ⟨r', hi, hr⟩ := insert_of_not_mem hl
    obtain ⟨r'', hi', hr'⟩ := ih hds (hr ▸ hn)
    refine ⟨r'', ?_, by simp [hr', hr]⟩
    rw [insertAll, hp]
    change r.insert d >>= (insertAll · os) = _
    rw [hi]
    exact hi'

theorem get?_of_mem {d : Directive} (h : d ∈ r.directives) : r.get? d.label = some d :=
  get?_eq_some_iff.mpr ⟨h, rfl⟩

/-- The markers of directives are read back as exactly these. -/
theorem ofText_encodeAll {ds : List Directive} (hn : (ds.map Directive.label).Nodup)
    (hl : ∀ d ∈ ds, IsLabel d.label) (hg : ∀ d ∈ ds, d.globs ≠ []) :
    ∃ r, ofText (Directive.encodeAll ds) = .ok r ∧ r.directives = ds ∧
      ∀ d ∈ ds, r.get? d.label = some d := by
  have hd := Directive.directivesOf_encodeAll hl hg
  obtain ⟨r, hr, hds⟩ := insertAll_of_directivesOf (r := empty) hd (by simpa [empty] using hn)
  rw [empty, List.nil_append] at hds
  subst hds
  refine ⟨r, ?_, rfl, fun d h => get?_of_mem h⟩
  rw [ofText_of_not_empty (Directive.not_emptyLoad_infix_encodeAll hl), hr]

/-- A glob with quotes, brackets, a line break and a marker, and a base with an escape. -/
theorem ofText_encodeAll_awkward :
    let ds : List Directive :=
      [⟨['a', ']'], [['\'', ')', '"', ',', '[', '\n'] ++ emptyLoad, ['*']],
          ⟨some ⟨['\\', 'u', '\x7d']⟩, true⟩⟩,
        ⟨['b', '(', ' ', 'c'], [[]], .default⟩]
    ∃ r, ofText (Directive.encodeAll ds) = .ok r ∧ r.directives = ds ∧
      ∀ d ∈ ds, r.get? d.label = some d :=
  ofText_encodeAll (by decide) (by decide) (by decide)

end Registry
end SourceMarks
