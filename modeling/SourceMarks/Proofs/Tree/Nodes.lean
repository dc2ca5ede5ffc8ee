import SourceMarks.Tree.Basic

/-! What stands at the trails of a tree, and how putting in an entry changes it. -/
namespace SourceMarks
variable {l inner : Listing} {e : Entry} {b : ByteArray} {n : RawText} {trail r q : List RawText}

/-- What stands at the end of a trail, without what is below it. -/
inductive Node
  | folder
  | file (bytes : ByteArray)

def Entry.node : Entry → Node
  | .folder _ => .folder
  | .file b => .file b

def Listing.node? (l : Listing) (trail : List RawText) : Option Node :=
  (l.get? trail).map Entry.node

def Entry.node? : Entry → List RawText → Option Node
  | .folder inner, r => inner.node? r
  | .file b, r => if r = [] then some (.file b) else none

namespace Listing

theorem find?_cons (name n : RawText) (e : Entry) (l : Listing) :
    (cons name e l).find? n = if name = n then some e else l.find? n := by
  cases e <;> rfl

theorem find?_put (name n : RawText) (e : Entry) (l : Listing) :
    (l.put name e).find? n = if name = n then some e else l.find? n := by
  induction l with
  | nil => simp [put, find?_cons]
  | file m b rest ih =>
    by_cases hm : m = name
    · by_cases hn : name = n <;> simp [put, find?, find?_cons, hm, hn]
    · by_cases hn : name = n
      · have hmn : m ≠ n := hn ▸ hm
        simp [put, find?, hm, hmn, ih]
      · simp [put, find?, hm, hn, ih]
  | folder m inner rest _ ih =>
    by_cases hm : m = name
    · by_cases hn : name = n <;> simp [put, find?, find?_cons, hm, hn]
    · by_cases hn : name = n
      · have hmn : m ≠ n := hn ▸ hm
        simp [put, find?, hm, hmn, ih]
      · simp [put, find?, hm, hn, ih]

theorem node?_nil (l : Listing) : l.node? [] = some .folder := rfl

theorem node?_cons (l : Listing) (n : RawText) (r : List RawText) :
    l.node? (n :: r) = (l.find? n).bind (·.node? r) := by
  cases hf : l.find? n with
  | none => simp [node?, get?, hf]
  | some e =>
    cases e with
    | folder inner => simp [node?, get?, hf, Entry.node?]
    | file b => cases r <;> simp [node?, get?, hf, Entry.node?, Entry.node]

theorem node?_put (l : Listing) (n m : RawText) (e : Entry) (r : List RawText) :
    (l.put n e).node? (m :: r) = if n = m then e.node? r else l.node? (m :: r) := by
  rw [node?_cons, node?_cons, find?_put]
  split <;> rfl

theorem exists_of_node?_cons (h : l.node? (n :: trail) = some .folder) :
    ∃ inner, l.find? n = some (.folder inner) ∧ inner.node? trail = some .folder := by
  rw [node?_cons] at h
  obtain ⟨e, he, h⟩ := Option.bind_eq_some_iff.mp h
  cases e with
  | folder inner => exact ⟨inner, he, h⟩
  | file b =>
    rw [Entry.node?] at h
    split at h <;> cases h

/-- Nothing stands below what is no folder. -/
theorem node?_below (h : l.node? trail ≠ some .folder) (hr : r ≠ []) :
    l.node? (trail ++ r) = none := by
  induction trail generalizing l with
  | nil => exact absurd (node?_nil l) h
  | cons n trail ih =>
    rw [node?_cons] at h
    rw [List.cons_append, node?_cons]
    cases hf : l.find? n with
    | none => rfl
    | some e =>
      rw [hf] at h
      cases e with
      | folder inner => exact ih h
      | file b => simp [Entry.node?, hr]

theorem set_cons (hf : l.find? n = some (.folder inner)) (hr : r ≠ []) :
    l.set (n :: r) e = l.put n (.folder (inner.set r e)) := by
  cases r with
  | nil => exact absurd rfl hr
  | cons m r => simp [set, hf]

theorem node?_set_append (hp : l.node? trail = some .folder) (r : List RawText) :
    (l.set (trail ++ [n]) e).node? (trail ++ n :: r) = e.node? r := by
  induction trail generalizing l with
  | nil => simp [set, node?_put]
  | cons m trail ih =>
    obtain ⟨inner, hf, hi⟩ := exists_of_node?_cons hp
    rw [List.cons_append, set_cons hf (by simp), List.cons_append, node?_put, if_pos rfl]
    exact ih hi

theorem node?_set_elsewhere (hp : l.node? trail = some .folder) (hq : ¬ trail ++ [n] <+: q) :
    (l.set (trail ++ [n]) e).node? q = l.node? q := by
  induction trail generalizing l q with
  | nil =>
    cases q with
    | nil => rfl
    | cons m q =>
      have hm : n ≠ m := by
        intro h
        exact hq (by simp [h])
      rw [List.nil_append, set, node?_put, if_neg hm]
  | cons m trail ih =>
    obtain ⟨inner, hf, hi⟩ := exists_of_node?_cons hp
    rw [List.cons_append, set_cons hf (by simp)]
    cases q with
    | nil => rfl
    | cons k q =>
      rw [node?_put]
      split
      · next h =>
        subst h
        rw [List.cons_append, List.cons_prefix_cons] at hq
        rw [node?_cons, hf]
        exact ih hi fun h => hq ⟨rfl, h⟩
      · rfl

/-- An entry with nothing below it that is put in the place of no folder changes its own trail
only. -/
theorem node?_set (hp : l.node? trail = some .folder) (hn : l.node? (trail ++ [n]) ≠ some .folder)
    (he : ∀ r, r ≠ [] → e.node? r = none) (q : List RawText) :
    (l.set (trail ++ [n]) e).node? q = if q = trail ++ [n] then e.node? [] else l.node? q := by
  by_cases hq : trail ++ [n] <+: q
  · obtain ⟨r, rfl⟩ := hq
    by_cases hr : r = []
    · subst hr
      have hs := node?_set_append (n := n) (e := e) hp []
      simpa using hs
    · have hs := node?_set_append (n := n) (e := e) hp r
      have hne : trail ++ [n] ++ r ≠ trail ++ [n] := by simpa using hr
      rw [if_neg hne, node?_below hn hr, List.append_assoc, List.singleton_append, hs, he r hr]
  · have hne : q ≠ trail ++ [n] := fun h => hq (h ▸ List.prefix_rfl)
    rw [node?_set_elsewhere hp hq, if_neg hne]

theorem isName_of_node? (hl : l.Proper) (h : (l.node? trail).isSome) : ∀ n ∈ trail, IsName n := by
  induction trail generalizing l with
  | nil => simp
  | cons n trail ih =>
    rw [node?_cons] at h
    cases hf : l.find? n with
    | none => simp [hf] at h
    | some e =>
      obtain ⟨hn, he⟩ := proper_of_find? hl hf
      rw [hf] at h
      refine List.forall_mem_cons.mpr ⟨hn, ?_⟩
      cases e with
      | folder inner => exact ih he h
      | file b =>
        cases trail with
        | nil => simp
        | cons m trail => simp [Entry.node?] at h

end Listing

namespace Tree
variable {t : Tree}

def node? (t : Tree) (trail : List RawText) : Option Node := t.top.node? trail

theorem node?_of_get? (h : t.top.get? trail = some e) : t.node? trail = some e.node := by
  rw [node?, Listing.node?, h]
  rfl

/-- Something can only stand below a folder. -/
theorem node?_eq_folder (h : (t.node? (trail ++ r)).isSome) (hr : r ≠ []) :
    t.node? trail = some .folder := by
  refine Classical.byContradiction fun hf => ?_
  rw [node?, Listing.node?_below hf hr] at h
  cases h

theorem get?_of_node?_folder (h : t.node? trail = some .folder) :
    ∃ inner, t.top.get? trail = some (.folder inner) := by
  obtain ⟨e, he, h⟩ := Option.map_eq_some_iff.mp h
  cases e with
  | folder inner => exact ⟨inner, he⟩
  | file b => cases h

theorem isName_of_node? (h : (t.node? trail).isSome) : ∀ n ∈ trail, IsName n :=
  Listing.isName_of_node? t.proper h

theorem home_setFile (t : Tree) (trail : List RawText) (b : ByteArray) :
    (t.setFile trail b).home = t.home := by
  rw [setFile]
  split <;> rfl

theorem home_setFolder (t : Tree) (trail : List RawText) : (t.setFolder trail).home = t.home := by
  rw [setFolder]
  split <;> rfl

theorem node?_setFile (hp : t.node? trail = some .folder) (hn : IsName n)
    (hf : t.node? (trail ++ [n]) ≠ some .folder) (b : ByteArray) (q : List RawText) :
    (t.setFile (trail ++ [n]) b).node? q =
      if q = trail ++ [n] then some (.file b) else t.node? q := by
  have hall : ∀ m ∈ trail ++ [n], IsName m := by
    have ht := isName_of_node? (Option.isSome_of_eq_some hp)
    simpa [or_imp, forall_and, hn] using ht
  rw [setFile, dif_pos hall]
  exact Listing.node?_set hp hf (fun r hr => by simp [Entry.node?, hr]) q

theorem node?_setFolder (hp : t.node? trail = some .folder) (hn : IsName n)
    (hf : t.node? (trail ++ [n]) = none) (q : List RawText) :
    (t.setFolder (trail ++ [n])).node? q = if q = trail ++ [n] then some .folder
      else t.node? q := by
  have hall : ∀ m ∈ trail ++ [n], IsName m := by
    have ht := isName_of_node? (Option.isSome_of_eq_some hp)
    simpa [or_imp, forall_and, hn] using ht
  have hne : t.node? (trail ++ [n]) ≠ some .folder := by simp [hf]
  rw [setFolder, dif_pos hall]
  refine Listing.node?_set hp hne (fun r hr => ?_) q
  cases r with
  | nil => exact absurd rfl hr
  | cons m r => rfl

end Tree
end SourceMarks
