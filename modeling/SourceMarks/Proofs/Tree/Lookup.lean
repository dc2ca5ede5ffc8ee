import SourceMarks.Proofs.Tree.Entries

/-!
Lookups below a root. A path joined with parts that only names can be leads to what stands below the
root's place under these names.
-/
namespace SourceMarks.Tree
open PathSymbol
variable {t : Tree} {root p : RawPath} {parts idle names trail next q r : List RawText}

/-- The parts of a path lead to a place, however long its text is. -/
def Reaches (t : Tree) (p : RawPath) (q : List RawText) : Prop :=
  t.follow (t.start p).1 (t.start p).2 = .ok q

/-- An entry stands below the place of a root under these names. -/
def Below (t : Tree) (root : RawPath) (names : List RawText) : Prop :=
  names ≠ [] ∧ ∃ q, t.Reaches root q ∧ (t.node? (q ++ names)).isSome

theorem leads_iff_reaches : t.Leads p q ↔ textTrouble? p = none ∧ t.Reaches p q := leads_iff

theorem Below.isName (h : t.Below root names) : ∀ n ∈ names, IsName n := by
  obtain ⟨-, q, -, hs⟩ := h
  exact fun n hn => isName_of_node? hs n (List.mem_append_right q hn)

/-- With names added, a path can be looked up unless it gets too long. -/
theorem textTrouble?_join_iff (hp : 0 ∉ p.text) (hn : ∀ n ∈ names, IsName n) (hne : names ≠ []) :
    textTrouble? (p.join (.ofParts names)) = none ↔
      (p.join (.ofParts names)).text.length < 4096 := by
  have hsolid := fun n hm => (hn n hm).solid
  have hrel := Path.isAbsolute_ofParts (Path.slash_not_mem_names hsolid) (Path.head?_names hsolid)
  have hzero : 0 ∉ (p.join (.ofParts names)).text := by
    have hslash : (0 : UInt8) ≠ slash := by decide
    have hopened : 0 ∉ Path.opened p.text := by
      by_cases h : p.text = [] ∨ p.text.getLast? = some slash <;> simp [Path.opened, h, hp, hslash]
    rw [Path.join_of_relative hrel, List.mem_append, not_or]
    exact ⟨hopened, Text.not_mem_join hslash fun n hm => (hn n hm).2.2.2.2.1⟩
  have hnil := Path.text_join_ne_nil (p := p) hrel (mt (Path.text_ofParts_names hsolid).mp hne)
  rw [textTrouble?_eq_none_iff]
  exact ⟨fun h => h.2.2, fun h => ⟨hzero, hnil, h⟩⟩

/-- Parts that lead nowhere else can be followed from a folder. -/
theorem follow_idle_iff (hi : ∀ x ∈ idle, Path.Idle x) (hf : t.node? q = some .folder) :
    t.follow trail (parts ++ idle) = .ok q ↔ t.follow trail parts = .ok q := by
  refine ⟨follow_idle hi, fun h => ?_⟩
  rw [follow_append, h]
  change t.follow q idle = _
  induction idle with
  | nil => rfl
  | cons x idle ih =>
    rw [List.forall_mem_cons] at hi
    have hs : t.step q x = .ok q := by
      rw [step_eq, hf]
      obtain rfl | rfl := hi.1 <;> rfl
    rw [follow, hs]
    exact ih hi.2

/-- A path and the path joined with another one begin alike, and the first has nothing else but
parts that lead nowhere. -/
theorem exists_front (t : Tree) (root : RawPath) {p : RawPath} (hp : p.isAbsolute = false) :
    ∃ front idle, (t.start root).2 = front ++ idle ∧ (∀ x ∈ idle, Path.Idle x) ∧
      t.start (root.join p) = ((t.start root).1, front ++ p.parts) := by
  obtain ⟨idle, hr, hi⟩ := Path.stem_append root.bodyParts
  refine ⟨Path.stem root.bodyParts, idle, hr, fun x hx => Or.inl (hi x hx), ?_⟩
  rw [start, start, Path.isAbsolute_join hp, Path.bodyParts_join hp]

theorem folderAt?_of_leads {inner : Listing} (hl : t.Leads p q)
    (hg : t.top.get? q = some (.folder inner)) : t.folderAt? p = some inner :=
  folderAt?_eq_some_iff.mpr ⟨q, hl, hg⟩

section Parts
variable (hs : ∀ x ∈ parts, Enters x ∧ slash ∉ x)
include hs

theorem isAbsolute_ofParts_enters : (Path.ofParts parts).isAbsolute = false :=
  Path.isAbsolute_ofParts (fun x hx => (hs x hx).2) fun h => (hs [] (List.mem_of_head? h)).1.1 rfl

/-- A path joined with parts leads to what stands below the path's place. -/
theorem reaches_join_iff (hne : parts ≠ []) : t.Reaches (root.join (.ofParts parts)) r ↔
    ∃ q, t.Reaches root q ∧ (t.node? (q ++ parts)).isSome ∧ r = q ++ parts := by
  have hslash := fun x hx => (hs x hx).2
  have henters := fun x hx => (hs x hx).1
  obtain ⟨front, idle, hroot, hidle, hjoin⟩ := exists_front t root (isAbsolute_ofParts_enters hs)
  rw [Reaches, hjoin, Path.parts_ofParts hslash hne]
  constructor
  · intro h
    rw [follow_append] at h
    obtain ⟨mid, hmid, h⟩ := bind_eq_ok_iff.mp h
    obtain rfl := follow_enters henters h
    have hsome := isSome_follow (fun hn => absurd hn hne) h
    refine ⟨mid, ?_, hsome, rfl⟩
    rw [Reaches, hroot]
    exact (follow_idle_iff hidle (node?_eq_folder hsome hne)).mpr hmid
  · rintro ⟨q, hq, hsome, rfl⟩
    rw [Reaches, hroot] at hq
    dsimp only
    rw [follow_append, follow_idle hidle hq]
    exact follow_down hsome

theorem isThere_join_iff (hne : parts ≠ []) : t.isThere (root.join (.ofParts parts)) ↔
    textTrouble? (root.join (.ofParts parts)) = none ∧ t.Below root parts := by
  simp only [isThere_iff, leads_iff_reaches, reaches_join_iff hs hne, Below]
  constructor
  · rintro ⟨r, htext, q, hq, hsome, -⟩
    exact ⟨htext, hne, q, hq, hsome⟩
  · rintro ⟨htext, -, q, hq, hsome⟩
    exact ⟨_, htext, q, hq, hsome, rfl⟩

/-- The same for folders, also if there are no parts. -/
theorem reaches_join_folder_iff (hf : t.node? r = some .folder) :
    t.Reaches (root.join (.ofParts parts)) r ↔ ∃ q, t.Reaches root q ∧ r = q ++ parts := by
  by_cases hne : parts = []
  · subst hne
    obtain ⟨front, idle, hroot, hidle, hjoin⟩ := exists_front t root (p := ⟨[]⟩) rfl
    have hnil : ∀ x ∈ Path.parts (α := UInt8) ⟨[]⟩, Path.Idle x := by
      intro x hx
      exact Or.inl (by simpa [Path.parts, Text.split] using hx)
    simp only [List.append_nil, exists_eq_right']
    change t.Reaches (root.join ⟨[]⟩) r ↔ _
    rw [Reaches, Reaches, hjoin, hroot, follow_idle_iff hnil hf, follow_idle_iff hidle hf]
  · rw [reaches_join_iff hs hne]
    constructor
    · rintro ⟨q, hq, -, hr⟩
      exact ⟨q, hq, hr⟩
    · rintro ⟨q, hq, hr⟩
      exact ⟨q, hq, hr ▸ Option.isSome_of_eq_some hf, hr⟩

/-- The folder at a path joined with parts holds what stands below the path under these parts. -/
theorem folderAt?_join_iff (hne : names ≠ []) :
    (∃ inner, t.folderAt? (root.join (.ofParts parts)) = some inner ∧ (inner.node? names).isSome) ↔
      textTrouble? (root.join (.ofParts parts)) = none ∧ t.Below root (parts ++ names) := by
  have hbelow : t.Below root (parts ++ names) ↔
      ∃ q, t.Reaches root q ∧ (t.node? (q ++ parts ++ names)).isSome := by
    simp [Below, hne]
  rw [hbelow]
  constructor
  · rintro ⟨inner, hi, hnode⟩
    obtain ⟨r, hl, hg⟩ := folderAt?_eq_some_iff.mp hi
    rw [leads_iff_reaches, reaches_join_folder_iff hs (node?_of_get? hg)] at hl
    obtain ⟨htext, q, hq, rfl⟩ := hl
    exact ⟨htext, q, hq, (node?_append hg names).symm ▸ hnode⟩
  · rintro ⟨htext, q, hq, hnode⟩
    have hf : t.node? (q ++ parts) = some .folder := node?_eq_folder hnode hne
    obtain ⟨inner, hg⟩ := get?_of_node?_folder hf
    have hl : t.Leads (root.join (.ofParts parts)) (q ++ parts) :=
      leads_iff_reaches.mpr ⟨htext, (reaches_join_folder_iff hs hf).mpr ⟨q, hq, rfl⟩⟩
    exact ⟨inner, folderAt?_of_leads hl hg, node?_append hg names ▸ hnode⟩

end Parts

end SourceMarks.Tree
