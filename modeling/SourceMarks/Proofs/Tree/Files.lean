import Mathlib.Data.List.Nodup
import SourceMarks.Proofs.Path.Below
import SourceMarks.Proofs.Tree.Reading
import SourceMarks.Tree.Walk

/-! The files below a folder: names all the way, and every file once. -/
namespace SourceMarks
variable {l inner : Listing} {t : Tree} {p input : RawPath} {extensions : List Text}
  {trail names q : List RawText}

namespace Listing

theorem mem_files (hl : l.Proper) (h : names ∈ l.files p) :
    (∃ n ∈ l.names, names.head? = some n) ∧ ∀ n ∈ names, IsName n := by
  induction l generalizing p names with
  | nil => simp [files] at h
  | file n b rest ih =>
    obtain ⟨hn, -, hr⟩ := hl
    rw [files, List.mem_cons] at h
    cases h with
    | inl h =>
      subst h
      exact ⟨⟨n, by simp [Listing.names], rfl⟩, by simpa using hn⟩
    | inr h =>
      obtain ⟨⟨m, hm, hh⟩, hall⟩ := ih hr h
      exact ⟨⟨m, List.mem_cons_of_mem n hm, hh⟩, hall⟩
  | folder n inner rest ihi ihr =>
    obtain ⟨hn, -, hi, hr⟩ := hl
    rw [files, List.mem_append] at h
    cases h with
    | inl h =>
      obtain ⟨below, hb, rfl⟩ := List.mem_map.mp h
      split at hb
      · exact ⟨⟨n, by simp [Listing.names], rfl⟩, List.forall_mem_cons.mpr ⟨hn, (ihi hi hb).2⟩⟩
      · cases hb
    | inr h =>
      obtain ⟨⟨m, hm, hh⟩, hall⟩ := ihr hr h
      exact ⟨⟨m, List.mem_cons_of_mem n hm, hh⟩, hall⟩

theorem ne_nil_of_mem_files (hl : l.Proper) (h : names ∈ l.files p) : names ≠ [] := by
  obtain ⟨⟨n, -, hh⟩, -⟩ := mem_files hl h
  rintro rfl
  cases hh

theorem nodup_files (hl : l.Proper) : (l.files p).Nodup := by
  induction l generalizing p with
  | nil => exact List.nodup_nil
  | file n b rest ih =>
    obtain ⟨-, hm, hr⟩ := hl
    refine List.nodup_cons.mpr ⟨fun h => ?_, ih hr⟩
    obtain ⟨⟨m, hmem, hh⟩, -⟩ := mem_files hr h
    cases hh
    exact hm hmem
  | folder n inner rest ihi ihr =>
    obtain ⟨-, hm, hi, hr⟩ := hl
    refine List.Nodup.append (List.Nodup.map List.cons_injective ?_) (ihr hr) ?_
    · split
      · exact ihi hi
      · exact List.nodup_nil
    · intro names hin hrest
      obtain ⟨below, -, rfl⟩ := List.mem_map.mp hin
      obtain ⟨⟨m, hmem, hh⟩, -⟩ := mem_files hr hrest
      cases hh
      exact hm hmem

theorem proper_of_get? (hl : l.Proper) (h : l.get? trail = some (.folder inner)) :
    inner.Proper := by
  induction trail generalizing l with
  | nil =>
    cases h
    exact hl
  | cons n trail ih =>
    rw [get?] at h
    split at h
    · next i hf => exact ih (proper_of_find? hl hf).2 h
    · split at h <;> cases h
    · cases h

end Listing

namespace Tree

theorem isFile_iff : t.isFile p ↔ ∃ q b, t.Leads p q ∧ t.node? q = some (.file b) := by
  have hread : t.isFile p ↔ ∃ b, t.entry p = .ok (.file b) := by
    rw [isFile]
    split
    · next b he => simp [he]
    · next hne => simpa using hne
  rw [hread]
  constructor
  · rintro ⟨b, he⟩
    obtain ⟨q, hl, hg⟩ := entry_eq_ok_iff.mp he
    exact ⟨q, b, hl, node?_of_get? hg⟩
  · rintro ⟨q, b, hl, hq⟩
    exact ⟨b, entry_eq_ok_iff.mpr ⟨q, hl, get?_of_node? hq⟩⟩

theorem folderAt?_eq_some_iff : t.folderAt? p = some inner ↔
    ∃ q, t.Leads p q ∧ t.top.get? q = some (.folder inner) := by
  rw [← entry_eq_ok_iff, folderAt?]
  split
  · next i he => simp [he]
  · next hne =>
    simp only [reduceCtorEq, false_iff]
    exact hne inner

theorem isFolder_of_get? (hl : t.Leads p q) (hg : t.top.get? q = some (.folder inner)) :
    t.isFolder p = true := by
  rw [isFolder_iff_leads hl, node?_of_get? hg]
  rfl

/-- Below one folder different names lead to different places. -/
theorem names_of_leads {names' : List RawText} (hn : ∀ n ∈ names, IsName n) (hne : names ≠ [])
    (hn' : ∀ n ∈ names', IsName n) (hne' : names' ≠ [])
    (h : t.Leads (p.join (.ofParts names)) q) (h' : t.Leads (p.join (.ofParts names')) q) :
    names = names' := by
  have hsolid := fun n hm => (hn n hm).solid
  have hsolid' := fun n hm => (hn' n hm).solid
  have hf := (leads_iff.mp h).2
  have hf' := (leads_iff.mp h').2
  rw [start_join_names hsolid hne, follow_append] at hf
  rw [start_join_names hsolid' hne', follow_append] at hf'
  obtain ⟨mid, hm, hf⟩ := bind_eq_ok_iff.mp hf
  obtain ⟨mid', hm', hf'⟩ := bind_eq_ok_iff.mp hf'
  rw [hm] at hm'
  cases hm'
  have hq := follow_enters (fun n hm => enters_of_isName (hn n hm)) hf
  have hq' := follow_enters (fun n hm => enters_of_isName (hn' n hm)) hf'
  exact List.append_cancel_left (hq.symm.trans hq')

end Tree

/-- The files under a path are the file there, or the files of the folder there. -/
theorem Tree.mem_discover (h : p ∈ t.discover input extensions) :
    t.isFile input ∧ p = input ∨
    ∃ q inner, t.Leads input q ∧ t.top.get? q = some (.folder inner) ∧
      ∃ names ∈ inner.files input, p = input.join (.ofParts names) := by
  rw [Tree.discover] at h
  split at h
  · next hf => exact Or.inl ⟨hf, by simpa using h⟩
  · split at h
    · simp at h
    · next inner hi =>
      have hmem := List.mem_mergeSort.mp h
      obtain ⟨hall, -⟩ := List.mem_filter.mp hmem
      obtain ⟨names, hn, rfl⟩ := List.mem_map.mp hall
      obtain ⟨q, hl, hg⟩ := Tree.folderAt?_eq_some_iff.mp hi
      have hp := Listing.proper_of_get? t.proper hg
      have hsolid := fun n hm => ((Listing.mem_files hp hn).2 n hm).solid
      exact Or.inr ⟨q, inner, hl, hg, names, hn,
        Path.under_eq hsolid (Listing.ne_nil_of_mem_files hp hn) input⟩

end SourceMarks
