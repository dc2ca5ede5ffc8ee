import SourceMarks.Pipeline.File
import SourceMarks.Proofs.Tree.Reading

/-!
Writing one file of a pipeline. What was written is where the destination leads from then on; a
write that fails leaves every file as it was.
-/
namespace SourceMarks
open PathSymbol
variable {t t' t'' : Tree} {p base : RawPath} {f : SourceFile} {out : Option RawPath}
  {b old : ByteArray} {q names : List RawText} {c : Contents} {e : Fault} {o : Option RawPath}

namespace Tree

/-- The bytes of the file at the end of a trail. -/
def file? (t : Tree) (q : List RawText) : Option ByteArray :=
  match t.node? q with
  | some (.file b) => some b
  | _ => none

theorem file?_eq_some_iff : t.file? q = some b ↔ t.node? q = some (.file b) := by
  rw [file?]
  cases t.node? q with
  | none => simp
  | some n => cases n <;> simp

theorem AddsFolders.file? (h : AddsFolders t t') (q : List RawText) : t'.file? q = t.file? q := by
  cases h.folders q with
  | inl he => rw [Tree.file?, Tree.file?, he]
  | inr hf => rw [Tree.file?, Tree.file?, hf.1, hf.2]

/-- The bytes were put where the path leads, and no other file changed. -/
structure Written (t t' : Tree) (p : RawPath) (b : ByteArray) : Prop where
  grows : Grows t t'
  leads : ∃ q, t'.Leads p q
  there : ∀ q, t'.Leads p q → t'.file? q = some b
  elsewhere : ∀ q, ¬ t'.Leads p q → t'.file? q = t.file? q

theorem written_of_write (h : t.write p b = .ok t') : Written t t' p b := by
  obtain ⟨q, hg, hl, hnode⟩ := write_eq_ok h
  refine ⟨hg, ⟨q, hl⟩, fun r hr => ?_, fun r hr => ?_⟩
  · rw [Tree.file?, hnode, if_pos (hr.unique hl)]
  · have hne : r ≠ q := fun he => hr (he ▸ hl)
    rw [Tree.file?, Tree.file?, hnode, if_neg hne]

theorem AddsFolders.written (h : AddsFolders t t') (hw : Written t' t'' p b) :
    Written t t'' p b :=
  ⟨h.grows.trans hw.grows, hw.leads, hw.there, fun q hq => (hw.elsewhere q hq).trans (h.file? q)⟩

end Tree

namespace SourceFile

theorem write_cases (hc : f.contents = .buffer b) (out : Option RawPath) (t : Tree) :
    ∃ made, Tree.AddsFolders t made ∧
      ((∃ trouble, f.write out t = .error (.unwritable (f.destination out) trouble, made)) ∨
        ∃ t', made.write (f.destination out) b = .ok t' ∧
          f.write out t = .ok (some (f.destination out), t')) := by
  simp only [write, hc]
  split
  · next trouble made hmade =>
    refine ⟨made, ?_, Or.inl ⟨trouble, rfl⟩⟩
    split at hmade
    · next folder _ =>
      have hl := Tree.left_makeFolders t folder
      rwa [hmade] at hl
    · cases hmade
  · next made hmade =>
    refine ⟨made, ?_, ?_⟩
    · split at hmade
      · next folder _ =>
        have hl := Tree.left_makeFolders t folder
        rwa [hmade] at hl
      · cases hmade
        exact Tree.AddsFolders.refl t
    · split
      · next t' hw => exact Or.inr ⟨t', hw, rfl⟩
      · next trouble _ => exact Or.inl ⟨trouble, rfl⟩

theorem write_ok (hc : f.contents = .buffer b) (h : f.write out t = .ok (o, t')) :
    o = some (f.destination out) ∧ Tree.Written t t' (f.destination out) b := by
  obtain ⟨made, hadds, ⟨trouble, he⟩ | ⟨t'', hw, ho⟩⟩ := write_cases hc out t
  · rw [he] at h
    cases h
  · rw [ho] at h
    cases h
    exact ⟨rfl, hadds.written (Tree.written_of_write hw)⟩

theorem write_error (hc : f.contents = .buffer b) (h : f.write out t = .error (e, t')) :
    Tree.AddsFolders t t' ∧ ∃ trouble, e = .unwritable (f.destination out) trouble := by
  obtain ⟨made, hadds, ⟨trouble, he⟩ | ⟨t'', hw, ho⟩⟩ := write_cases hc out t
  · rw [he] at h
    cases h
    exact ⟨hadds, trouble, rfl⟩
  · rw [ho] at h
    cases h

theorem write_of_parent {made : Tree} {folder : RawPath} (hc : f.contents = .buffer b)
    (hd : f.destination out = p) (hp : p.parent? = some folder)
    (hm : t.makeFolders folder = .ok made) (hw : made.write p b = .ok t') :
    f.write out t = .ok (some p, t') := by
  simp only [write, hc, hd, hp, hm, hw]

/-- A file that is there can be written in its place, and nothing else is made. -/
theorem write_in_place (hc : f.contents = .buffer b) (hl : t.Leads f.path q)
    (hq : t.node? q = some (.file old)) :
    f.write none t = .ok (some f.path, t.setFile q b) := by
  cases hp : f.path.parent? with
  | none => simp only [write, hc, destination, hp, Tree.write_file hl hq]
  | some folder =>
    exact write_of_parent hc rfl hp (Tree.makeFolders_parent hl hq hp) (Tree.write_file hl hq b)

section Relative
variable (hn : ∀ n ∈ names, IsName n) (hne : names ≠ [])
include hn hne

theorem relative_of_below (h : p.below? base = some (.ofParts names)) :
    relative ⟨p, base, c⟩ = .ofParts names := by
  have ht : (Path.ofParts names).text ≠ [] :=
    mt (Path.text_ofParts_names fun n hm => (hn n hm).solid).mp hne
  simp [relative, h, ht]

/-- Names below a folder are the relative path again. -/
theorem relative_join (ht : base.text ≠ []) :
    relative ⟨base.join (.ofParts names), base, c⟩ = .ofParts names := by
  have hsolid := fun n hm => (hn n hm).solid
  have hnames := Path.isAbsolute_ofParts (Path.slash_not_mem_names hsolid) (Path.head?_names hsolid)
  obtain ⟨rest, hstem, hrest⟩ := Path.stem_append base.bodyParts
  have hh : base.isAbsolute = false → (Path.stem base.bodyParts).head? ≠ some [] := by
    intro ha
    rw [Path.bodyParts_of_relative ha] at hstem ⊢
    exact Path.head?_of_parts ha ht hstem
  -- A base with a text begins with a part that is not empty.
  have hinit : base.isAbsolute = false → Path.stem base.bodyParts ≠ [] := by
    intro ha he
    rw [Path.bodyParts_of_relative ha] at hstem he
    obtain ⟨x, xs, hx⟩ := List.exists_cons_of_ne_nil (Text.split_ne_nil slash base.text)
    rw [he, List.nil_append, Path.parts, hx] at hstem
    refine Path.head?_parts ha ht ?_
    rw [Path.parts, hx, List.head?_cons, hrest x (by simp [← hstem])]
  refine relative_of_below hn hne ?_
  refine Path.below?_of_bodyParts (fun n hm => (hn n hm).not_idle)
    (Path.bodyParts_join_names hsolid hne base) hne ?_ ?_
  · rwa [Path.isAbsolute_join hnames]
  · rw [Path.components_eq, Path.isAbsolute_join hnames]
    nth_rewrite 1 [hstem]
    exact Path.bodyComponents_idle hinit fun x hx => Or.inl (hrest x hx)

end Relative

/-- A file is its name below its parent. -/
theorem relative_parent (hl : t.Leads p q) (hq : t.node? q = some (.file b)) :
    ∃ n, IsName n ∧ relative ⟨p, p.parent?.getD ⟨[]⟩, c⟩ = .ofParts [n] := by
  obtain ⟨init, n, trail, hp, hn, rfl, -⟩ := Tree.exists_name hl hq
  have hs : ∀ x ∈ init, slash ∉ x := fun x hx =>
    Path.slash_not_mem_of_mem_parts (Path.mem_parts_of_mem_bodyParts (p := p) (by simp [hp, hx]))
  have hh : p.isAbsolute = false → init.head? ≠ some [] := by
    intro ha
    rw [Path.bodyParts_of_relative ha] at hp
    exact Path.head?_of_parts ha (Tree.text_ne_nil_of_leads hl) hp
  have hnames : ∀ m ∈ [n], IsName m := by simpa using hn
  refine ⟨n, hn, relative_of_below hnames (by simp) ?_⟩
  rw [Path.parent?_of_bodyParts hp hn.not_idle]
  exact Path.below?_of_bodyParts (fun m hm => (hnames m hm).not_idle) hp (by simp) hh
    (Path.components_withBody_dropIdleEnd hs hh)

end SourceFile
end SourceMarks
