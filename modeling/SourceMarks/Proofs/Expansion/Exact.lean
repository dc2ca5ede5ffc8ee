import SourceMarks.Expansion
import SourceMarks.Proofs.Directive.Registry

/-!
Expansion as one replacement. Main statements: once the registry of a text is built, its expansion
puts the files of each payload in the place of that payload's own marker, and each fault is that of
the first marker that has one.
-/
namespace SourceMarks.Expansion
variable {m : Matcher} {text : Text}

def rendered (m : Matcher) (payload : Text) : Except Fault Text := do
  let d ← Payload.parse payload
  let files ← d.resolve m
  .ok (renderFiles files)

/-- What keeps the files of a parsed load marker from being found. -/
def Unresolved (m : Matcher) (_before : List Occurrence) (o : Occurrence) (e : Fault) : Prop :=
  ∃ d, Payload.parse o.payload = .ok d ∧ d.resolve m = .error e

theorem rendered_of_parse {payload : Text} {d : Directive} (h : Payload.parse payload = .ok d) :
    rendered m payload = (d.resolve m).map renderFiles := by
  rw [rendered, h]
  cases hr : d.resolve m with
  | error e => simp [hr, bind, Except.bind, Except.map]
  | ok files => simp [hr, bind, Except.bind, Except.map]

theorem rendered_eq_ok_iff {payload new : Text} : rendered m payload = .ok new ↔
    ∃ d files, Payload.parse payload = .ok d ∧ d.resolve m = .ok files ∧
      new = renderFiles files := by
  simp only [rendered, bind_eq_ok_iff, Except.ok.injEq]
  constructor
  · intro h
    obtain ⟨d, hd, files, hf, rfl⟩ := h
    exact ⟨d, files, hd, hf, rfl⟩
  · intro h
    obtain ⟨d, files, hd, hf, rfl⟩ := h
    exact ⟨d, hd, files, hf, rfl⟩

theorem parse_of_mem_scan {r : Registry} (h : Registry.ofText text = .ok r) {o : Occurrence}
    (ho : o ∈ Marker.load.scan text) :
    ∃ d ∈ r.directives, Payload.parse o.payload = .ok d := by
  obtain ⟨dir, hd, hr⟩ := mapM_eq_ok_iff.mp (Registry.directivesOf_scan h)
  rw [hr]
  exact ⟨dir o, List.mem_map_of_mem ho, hd o ho⟩

/-- Looking up labels in the resolved registry is resolving each payload itself. -/
theorem substitute_eq {r : Registry} {resolved : Resolved} (h : Registry.ofText text = .ok r)
    (hr : r.resolve m = .ok resolved) :
    substitute text resolved = Marker.load.replace text fun o => rendered m o.payload := by
  refine Marker.replace_congr (g := fun p => do
    let d ← Payload.parse p
    .ok (renderFiles (resolved.filesOf d.label))) fun p hp => ?_
  rw [← Marker.map_payload_scan] at hp
  obtain ⟨o, ho, rfl⟩ := List.mem_map.mp hp
  obtain ⟨d, hd, hp⟩ := parse_of_mem_scan h ho
  obtain ⟨files, hf, hl⟩ := Registry.find?_resolve hr hd
  simp [rendered, hp, hf, Resolved.filesOf, hl, bind, Except.bind]

theorem replace_eq_error_of_resolve {r : Registry} {e : Fault} (h : Registry.ofText text = .ok r)
    (hr : r.resolve m = .error e) :
    (Marker.load.replace text fun o => rendered m o.payload) = .error e := by
  obtain ⟨dir, hd, hl⟩ := mapM_eq_ok_iff.mp (Registry.directivesOf_scan h)
  rw [Registry.resolve, hl, List.mapM_map] at hr
  rw [Marker.replace_eq_weave, map_eq_error_iff]
  refine mapM_eq_error_of_firstFault ((firstFault_of_mapM_eq_error hr).congr ?_)
  intro before o after e hs
  rw [rendered_of_parse (hd o (by simp [hs]))]
  exact map_eq_error_iff.trans map_eq_error_iff.symm

theorem replace_eq_of_isEmpty {r : Registry} (h : Registry.ofText text = .ok r)
    (he : r.isEmpty = true) :
    (Marker.load.replace text fun o => rendered m o.payload) = .ok text := by
  obtain ⟨dir, -, hl⟩ := mapM_eq_ok_iff.mp (Registry.directivesOf_scan h)
  have hs : Marker.load.payloads text = [] := by
    rw [List.isEmpty_iff.mp he] at hl
    rw [← Marker.map_payload_scan, List.map_eq_nil_iff.mp hl.symm, List.map_nil]
  refine Marker.replace_eq_ok_iff.mpr ⟨id, by simp [hs], ?_⟩
  rw [fill_of_no_payload id hs, Marker.written_pieces]

/-- Expansion builds the registry of a text, and then resolves each marker where it stands. -/
theorem expand_eq (m : Matcher) (text : Text) : expand m text =
    Registry.ofText text >>= fun _ =>
      Marker.load.replace text fun o => rendered m o.payload := by
  unfold expand
  cases h : Registry.ofText text with
  | error e => rfl
  | ok r =>
    simp only [bind, Except.bind]
    by_cases he : r.isEmpty = true
    · rw [if_pos he, replace_eq_of_isEmpty h he]
    · rw [if_neg he]
      cases hr : r.resolve m with
      | error e => exact (replace_eq_error_of_resolve h hr).symm
      | ok resolved => exact substitute_eq h hr

theorem expand_eq_ok_iff {out : Text} : expand m text = .ok out ↔
    (∃ r, Registry.ofText text = .ok r) ∧
      (Marker.load.replace text fun o => rendered m o.payload) = .ok out := by
  rw [expand_eq, bind_eq_ok_iff]
  constructor
  · intro h
    obtain ⟨r, hr, ho⟩ := h
    exact ⟨⟨r, hr⟩, ho⟩
  · intro h
    obtain ⟨⟨r, hr⟩, ho⟩ := h
    exact ⟨r, hr, ho⟩

theorem expand_of_empty (h : Marker.emptyLoad <:+: text) :
    expand m text = .error .emptyArguments := by
  rw [expand_eq, Registry.ofText_of_empty h]
  rfl

theorem expand_of_offence (h : ¬ Marker.emptyLoad <:+: text)
    (hf : ¬ Faultless Offence (Marker.load.scan text)) :
    ∃ e, FirstFault Offence (Marker.load.scan text) e ∧ expand m text = .error e := by
  obtain ⟨r, -, -, hr⟩ | ⟨e, he, hs⟩ := Registry.insertAll_empty (Marker.load.scan text)
  · exact absurd hr hf
  · refine ⟨e, hs, ?_⟩
    rw [expand_eq, Registry.ofText_of_not_empty h, he]
    rfl

theorem expand_of_faultless (h : ¬ Marker.emptyLoad <:+: text)
    (hf : Faultless Offence (Marker.load.scan text)) :
    expand m text = Marker.load.replace text fun o => rendered m o.payload := by
  obtain ⟨r, hr, -, -⟩ | ⟨e, -, hs⟩ := Registry.insertAll_empty (Marker.load.scan text)
  · rw [expand_eq, Registry.ofText_of_not_empty h, hr]
    rfl
  · exact absurd hf hs.not_faultless

theorem rendered_eq_error_iff {os : List Occurrence} (hf : Faultless Offence os) {o : Occurrence}
    (ho : o ∈ os) (before : List Occurrence) (e : Fault) :
    rendered m o.payload = .error e ↔ Unresolved m before o e := by
  obtain ⟨front, back, hs⟩ := List.append_of_mem ho
  cases hp : Payload.parse o.payload with
  | error e' => exact absurd (Or.inl hp) (hf front o back e' hs)
  | ok d =>
    rw [rendered_of_parse hp]
    constructor
    · intro h
      exact ⟨d, hp, map_eq_error_iff.mp h⟩
    · intro h
      obtain ⟨d', hd, h⟩ := h
      rw [hp] at hd
      obtain rfl := Except.ok.inj hd
      exact map_eq_error_iff.mpr h

theorem replace_rendered (hf : Faultless Offence (Marker.load.scan text)) :
    (∃ e, FirstFault (Unresolved m) (Marker.load.scan text) e ∧
      (Marker.load.replace text fun o => rendered m o.payload) = .error e) ∨
    (∃ new : Occurrence → Text,
      (∀ o ∈ Marker.load.scan text, rendered m o.payload = .ok (new o)) ∧
      (Marker.load.replace text fun o => rendered m o.payload) =
        .ok (splice 0 text ((Marker.load.scan text).map fun o => (o, new o)))) := by
  rw [Marker.replace_eq_weave]
  cases h : (Marker.load.scan text).mapM fun o => rendered m o.payload with
  | error e =>
    refine Or.inl ⟨e, (firstFault_of_mapM_eq_error h).congr ?_, rfl⟩
    intro before o after e hs
    exact rendered_eq_error_iff hf (by simp [hs]) before e
  | ok news =>
    obtain ⟨new, hn, rfl⟩ := mapM_eq_ok_iff.mp h
    refine Or.inr ⟨new, hn, ?_⟩
    rw [map_eq_ok_iff]
    refine ⟨_, rfl, ?_⟩
    rw [Marker.weave_pieces_eq_splice (List.length_map new), List.map_prod_left_eq_zip]

theorem not_empty_of_expand {out : Text} (h : expand m text = .ok out) :
    ¬ Marker.emptyLoad <:+: text := by
  intro he
  rw [expand_of_empty he] at h
  cases h

theorem faultless_of_expand {out : Text} (h : expand m text = .ok out) :
    Faultless Offence (Marker.load.scan text) ∧
      Faultless (Unresolved m) (Marker.load.scan text) := by
  have he := not_empty_of_expand h
  by_cases hf : Faultless Offence (Marker.load.scan text)
  · refine ⟨hf, fun before o after e hs hu => ?_⟩
    have ho : o ∈ Marker.load.scan text := by simp [hs]
    rw [expand_of_faultless he hf] at h
    obtain ⟨new, hn, -⟩ := Marker.replace_eq_ok_iff.mp h
    have hp := hn o.payload (Marker.payload_mem_payloads ho)
    rw [(rendered_eq_error_iff hf ho before e).mpr hu] at hp
    cases hp
  · obtain ⟨e, -, hr⟩ := expand_of_offence (m := m) he hf
    rw [h] at hr
    cases hr

/-- A text with an empty load marker anywhere is not expanded. Otherwise the first marker that
cannot be parsed or repeats a label is the fault, and otherwise the first one whose files cannot be
found. Otherwise each marker, and nothing else, gives way to the files of its own payload, and the
files of its label are never looked up in vain. -/
theorem expand_exact (m : Matcher) (text : Text) :
    (Marker.emptyLoad <:+: text → expand m text = .error .emptyArguments) ∧
    (¬ Marker.emptyLoad <:+: text →
      (¬ Faultless Offence (Marker.load.scan text) →
        ∃ e, FirstFault Offence (Marker.load.scan text) e ∧ expand m text = .error e) ∧
      (Faultless Offence (Marker.load.scan text) →
        (¬ Faultless (Unresolved m) (Marker.load.scan text) →
          ∃ e, FirstFault (Unresolved m) (Marker.load.scan text) e ∧
            expand m text = .error e) ∧
        (Faultless (Unresolved m) (Marker.load.scan text) →
          ∃ new : Occurrence → Text,
            (∀ o ∈ Marker.load.scan text, ∃ d files, Payload.parse o.payload = .ok d ∧
              d.resolve m = .ok files ∧ new o = renderFiles files) ∧
            expand m text =
              .ok (splice 0 text ((Marker.load.scan text).map fun o => (o, new o)))))) ∧
    ∀ r resolved, Registry.ofText text = .ok r → r.resolve m = .ok resolved →
      ∀ o ∈ Marker.load.scan text, ∃ d files, Payload.parse o.payload = .ok d ∧
        d.resolve m = .ok files ∧
        resolved.find? (fun e => e.1 = d.label) = some (d.label, files) := by
  refine ⟨expand_of_empty, fun h => ⟨expand_of_offence h, fun hf => ?_⟩, ?_⟩
  · rw [expand_of_faultless h hf]
    obtain ⟨e, he, hr⟩ | ⟨new, hn, hr⟩ := replace_rendered (m := m) hf
    · exact ⟨fun _ => ⟨e, he, hr⟩, fun hu => absurd hu he.not_faultless⟩
    · refine ⟨fun hu => absurd ?_ hu, fun _ => ⟨new, fun o ho => ?_, hr⟩⟩
      · intro before o after e hs hu
        have ho : o ∈ Marker.load.scan text := by simp [hs]
        have he := (rendered_eq_error_iff hf ho before e).mpr hu
        rw [hn o ho] at he
        cases he
      · exact rendered_eq_ok_iff.mp (hn o ho)
  · intro r resolved h hr o ho
    obtain ⟨d, hd, hp⟩ := parse_of_mem_scan h ho
    obtain ⟨files, hf, hl⟩ := Registry.find?_resolve hr hd
    exact ⟨d, files, hp, hf, hl⟩

end SourceMarks.Expansion
