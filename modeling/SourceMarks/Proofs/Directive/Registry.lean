import SourceMarks.Directive.Resolve
import SourceMarks.Proofs.Directive.Labels
import SourceMarks.Proofs.Marker.Replacement

/-!
The registry of a text, occurrence by occurrence. Main statement: either every occurrence can be
parsed and has a label of its own, and the registry lists their directives, or the first occurrence
that offends is the fault.
-/
namespace SourceMarks

instance : Inhabited Directive := ⟨⟨[], [], .default⟩⟩

/-- A label is that of one of some occurrences. -/
def Taken (os : List Occurrence) (label : Text) : Prop :=
  ∃ o ∈ os, ∃ d, Payload.parse o.payload = .ok d ∧ d.label = label

/-- What is wrong with a load marker that stands behind others: it cannot be parsed, or its label
is taken. -/
def Offence (before : List Occurrence) (o : Occurrence) (e : Fault) : Prop :=
  Payload.parse o.payload = .error e ∨
    ∃ d, Payload.parse o.payload = .ok d ∧ Taken before d.label ∧ e = .duplicateLabel d.label

def directivesOf (os : List Occurrence) : Except Fault (List Directive) :=
  os.mapM fun o => Payload.parse o.payload

theorem taken_iff {os : List Occurrence} {ds : List Directive} (h : directivesOf os = .ok ds)
    (label : Text) : label ∈ ds.map Directive.label ↔ Taken os label := by
  obtain ⟨dir, hd, rfl⟩ := mapM_eq_ok_iff.mp h
  rw [List.map_map, List.mem_map]
  constructor
  · intro h
    obtain ⟨o, ho, rfl⟩ := h
    exact ⟨o, ho, dir o, hd o ho, rfl⟩
  · intro h
    obtain ⟨o, ho, d, hp, rfl⟩ := h
    refine ⟨o, ho, ?_⟩
    rw [hd o ho] at hp
    obtain rfl := Except.ok.inj hp
    rfl

namespace Registry
variable {r : Registry} {os : List Occurrence}

theorem insert_of_not_mem {d : Directive} (h : d.label ∉ r.labels) :
    ∃ r', r.insert d = .ok r' ∧ r'.directives = r.directives ++ [d] := by
  obtain ⟨hok, hnew⟩ := offer_of_not_mem h
  refine ⟨(r.offer d).2, ?_, hnew⟩
  rw [insert, hok]
  rfl

theorem insert_of_mem {d : Directive} (h : d.label ∈ r.labels) :
    r.insert d = .error (.duplicateLabel d.label) := by
  rw [insert, offer_of_mem h]
  rfl

theorem insertAll_append (r : Registry) (os os' : List Occurrence) :
    insertAll r (os ++ os') = insertAll r os >>= fun r' => insertAll r' os' := by
  induction os generalizing r with
  | nil => rfl
  | cons o os ih => simp only [List.cons_append, insertAll, ih, bind_assoc]

theorem insertAll_congr {os' : List Occurrence}
    (h : os.map Occurrence.payload = os'.map Occurrence.payload) :
    insertAll r os = insertAll r os' := by
  induction os generalizing r os' with
  | nil =>
    obtain rfl := List.map_eq_nil_iff.mp h.symm
    rfl
  | cons o os ih =>
    cases os' with
    | nil => simp at h
    | cons o' os' =>
      obtain ⟨hp, ht⟩ := List.cons.inj h
      simp only [insertAll, hp, fun r => ih (r := r) ht]

/-- One more marker is parsed, and its directive is added to those of the markers before it. -/
theorem insertAll_append_singleton {o : Occurrence} (h : insertAll empty os = .ok r) :
    insertAll empty (os ++ [o]) = Payload.parse o.payload >>= r.insert := by
  rw [insertAll_append, h]
  change (Payload.parse o.payload >>= fun d => r.insert d >>= pure) = _
  simp only [bind_pure]

theorem directivesOf_append_singleton {ds : List Directive} {o : Occurrence} {d : Directive}
    (hd : directivesOf os = .ok ds) (hp : Payload.parse o.payload = .ok d) :
    directivesOf (os ++ [o]) = .ok (ds ++ [d]) := by
  rw [directivesOf] at hd ⊢
  rw [List.mapM_append, hd, List.mapM_cons, hp]
  rfl

theorem not_offence {o : Occurrence} {d : Directive} (hd : directivesOf os = .ok r.directives)
    (hp : Payload.parse o.payload = .ok d) (hl : d.label ∉ r.labels)
    (e : Fault) : ¬ Offence os o e := by
  intro h
  rw [Offence, hp] at h
  obtain h | ⟨d', h, ht, -⟩ := h
  · cases h
  · obtain rfl := Except.ok.inj h
    exact hl ((taken_iff hd _).mpr ht)

/-- Every occurrence is sound and the registry lists their directives, or the first offence is the
fault. -/
theorem insertAll_empty (os : List Occurrence) :
    (∃ r, insertAll empty os = .ok r ∧ directivesOf os = .ok r.directives ∧
      Faultless Offence os) ∨
    ∃ e, insertAll empty os = .error e ∧ FirstFault Offence os e := by
  induction os using List.reverseRecOn with
  | nil => exact Or.inl ⟨empty, rfl, rfl, faultless_nil⟩
  | append_singleton os o ih =>
    obtain ⟨r, hr, hd, hf⟩ | ⟨e, he, hf⟩ := ih
    · rw [insertAll_append_singleton hr]
      cases hp : Payload.parse o.payload with
      | error e => exact Or.inr ⟨e, rfl, firstFault_of_last hf (Or.inl hp)⟩
      | ok d =>
        by_cases hl : d.label ∈ r.labels
        · have ht := (taken_iff hd d.label).mp hl
          have ho := firstFault_of_last hf (Or.inr ⟨d, hp, ht, rfl⟩)
          exact Or.inr ⟨.duplicateLabel d.label, insert_of_mem hl, ho⟩
        · obtain ⟨r', hi, hr'⟩ := insert_of_not_mem hl
          have hf' := faultless_append_singleton hf (not_offence hd hp hl)
          refine Or.inl ⟨r', hi, ?_, hf'⟩
          rw [hr', directivesOf_append_singleton hd hp]
    · refine Or.inr ⟨e, ?_, hf.append [o]⟩
      rw [insertAll_append, he]
      rfl

theorem ofText_of_empty {text : Text} (h : Marker.emptyLoad <:+: text) :
    ofText text = .error .emptyArguments := by
  unfold ofText Marker.emptyLoadLine?
  rw [Option.isSome_map, if_pos (Text.isSome_before?_iff.mpr h)]

theorem ofText_of_not_empty {text : Text} (h : ¬ Marker.emptyLoad <:+: text) :
    ofText text = insertAll empty (Marker.load.scan text) := by
  unfold ofText Marker.emptyLoadLine?
  rw [Option.isSome_map, if_neg (fun hs => h (Text.isSome_before?_iff.mp hs))]

theorem ofText_congr {text text' : Text} (he : ¬ Marker.emptyLoad <:+: text)
    (he' : ¬ Marker.emptyLoad <:+: text')
    (h : Marker.load.payloads text = Marker.load.payloads text') : ofText text = ofText text' := by
  rw [ofText_of_not_empty he, ofText_of_not_empty he']
  refine insertAll_congr ?_
  rw [Marker.map_payload_scan, Marker.map_payload_scan, h]

theorem directivesOf_scan {text : Text} (h : ofText text = .ok r) :
    directivesOf (Marker.load.scan text) = .ok r.directives := by
  by_cases he : Marker.emptyLoad <:+: text
  · rw [ofText_of_empty he] at h
    cases h
  · rw [ofText_of_not_empty he] at h
    obtain ⟨r', hr, hd, -⟩ | ⟨e, he, -⟩ := insertAll_empty (Marker.load.scan text)
    · rw [h] at hr
      obtain rfl := Except.ok.inj hr
      exact hd
    · rw [h] at he
      cases he

end Registry

theorem Resolved.find?_of_mem {ds : List Directive} (files : Directive → List Text)
    (hn : (ds.map Directive.label).Nodup) {d : Directive} (hd : d ∈ ds) :
    (ds.map fun d => (d.label, files d)).find? (fun e => e.1 = d.label) =
      some (d.label, files d) := by
  induction ds with
  | nil => cases hd
  | cons c ds ih =>
    rw [List.map_cons, List.nodup_cons] at hn
    rw [List.map_cons, List.find?_cons]
    cases List.mem_cons.mp hd with
    | inl he => simp [he]
    | inr hd =>
      have hc : c.label ≠ d.label := fun h => hn.1 (h ▸ List.mem_map_of_mem hd)
      simp [hc, ih hn.2 hd]

theorem Registry.find?_resolve {m : Matcher} {r : Registry} {resolved : Resolved}
    (h : r.resolve m = .ok resolved) {d : Directive} (hd : d ∈ r.directives) :
    ∃ files, d.resolve m = .ok files ∧
      resolved.find? (fun e => e.1 = d.label) = some (d.label, files) := by
  obtain ⟨entry, he, rfl⟩ := mapM_eq_ok_iff.mp h
  have hf : ∀ c ∈ r.directives, ∃ files, c.resolve m = .ok files ∧ entry c = (c.label, files) := by
    intro c hc
    obtain ⟨files, hr, hl⟩ := map_eq_ok_iff.mp (he c hc)
    exact ⟨files, hr, hl.symm⟩
  have hm : r.directives.map entry = r.directives.map fun c => (c.label, (entry c).2) := by
    refine List.map_congr_left fun c hc => ?_
    obtain ⟨files, -, hl⟩ := hf c hc
    rw [hl]
  obtain ⟨files, hr, hl⟩ := hf d hd
  refine ⟨files, hr, ?_⟩
  rw [hm, Resolved.find?_of_mem (fun c => (entry c).2) r.distinct hd, hl]

end SourceMarks
