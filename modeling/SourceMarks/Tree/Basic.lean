import SourceMarks.Path.Basic

/-!
File systems as values: the files and folders from the root down, and the folder where relative
paths begin. A folder is a chain of named files and folders in which, at any depth, every name is
one that a path can mention and none occurs twice.

Names are bytes, and need not encode a text. There are files and folders only, no links and no
devices, and whoever looks may list and enter every folder, read and change every file. Lookups are
limited by the length of a name and by the length of a path.
-/

namespace SourceMarks

open PathSymbol

/-- The content of a folder. -/
inductive Listing
  | nil
  | file (name : RawText) (bytes : ByteArray) (rest : Listing)
  | folder (name : RawText) (inner : Listing) (rest : Listing)
  deriving Inhabited

/-- What can name a file or a folder: one part of a path that does not lead elsewhere, and that is
not too long. -/
def IsName (n : RawText) : Prop :=
  n ≠ [] ∧ n ≠ [dot] ∧ n ≠ [dot, dot] ∧ slash ∉ n ∧ 0 ∉ n ∧ n.length ≤ 255

instance (n : RawText) : Decidable (IsName n) :=
  inferInstanceAs (Decidable
    (n ≠ [] ∧ n ≠ [dot] ∧ n ≠ [dot, dot] ∧ slash ∉ n ∧ 0 ∉ n ∧ n.length ≤ 255))

/-- What a name in a folder stands for. -/
inductive Entry
  | file (bytes : ByteArray)
  | folder (inner : Listing)

namespace Listing

/-- The names in a folder, without those further below. -/
def names : Listing → List RawText
  | nil => []
  | file n _ rest => n :: names rest
  | folder n _ rest => n :: names rest

/-- Every name is one, and no folder holds a name twice. -/
def Proper : Listing → Prop
  | nil => True
  | file n _ rest => IsName n ∧ n ∉ rest.names ∧ rest.Proper
  | folder n inner rest => IsName n ∧ n ∉ rest.names ∧ inner.Proper ∧ rest.Proper

def find? (name : RawText) : Listing → Option Entry
  | nil => none
  | file n b rest => if n = name then some (.file b) else find? name rest
  | folder n inner rest => if n = name then some (.folder inner) else find? name rest

def cons (name : RawText) : Entry → Listing → Listing
  | .file b, rest => file name b rest
  | .folder inner, rest => folder name inner rest

/-- Gives a name a new meaning, or adds it at the end. -/
def put (name : RawText) (e : Entry) : Listing → Listing
  | nil => cons name e nil
  | file n b rest => if n = name then cons name e rest else file n b (put name e rest)
  | folder n inner rest =>
    if n = name then cons name e rest else folder n inner (put name e rest)

/-- What a trail of names leads to. -/
def get? : List RawText → Listing → Option Entry
  | [], l => some (.folder l)
  | n :: trail, l =>
    match l.find? n with
    | some (.folder inner) => get? trail inner
    | some (.file b) => if trail.isEmpty then some (.file b) else none
    | none => none

/-- Puts an entry at the end of a trail. A trail that does not lead through folders changes
nothing. -/
def set : List RawText → Entry → Listing → Listing
  | [], _, l => l
  | [n], e, l => l.put n e
  | n :: next :: trail, e, l =>
    match l.find? n with
    | some (.folder inner) => l.put n (.folder (set (next :: trail) e inner))
    | _ => l

end Listing

/-- The entry is a file or a proper folder. -/
def Entry.Proper : Entry → Prop
  | .file _ => True
  | .folder inner => inner.Proper

namespace Listing

theorem names_cons (name : RawText) (e : Entry) (l : Listing) :
    (cons name e l).names = name :: l.names := by
  cases e <;> rfl

theorem names_put (name : RawText) (e : Entry) (l : Listing) :
    (l.put name e).names = if name ∈ l.names then l.names else l.names ++ [name] := by
  induction l with
  | nil => simp [put, names_cons, names]
  | file n b rest ih =>
    by_cases h : n = name
    · simp [put, h, names_cons, names]
    · have h' : ¬ name = n := fun e => h e.symm
      by_cases hm : name ∈ rest.names <;> simp [put, h, h', names, ih, hm]
  | folder n inner rest _ ih =>
    by_cases h : n = name
    · simp [put, h, names_cons, names]
    · have h' : ¬ name = n := fun e => h e.symm
      by_cases hm : name ∈ rest.names <;> simp [put, h, h', names, ih, hm]

theorem proper_cons {name : RawText} {e : Entry} {l : Listing} (hn : IsName name)
    (hm : name ∉ l.names) (he : e.Proper) (hl : l.Proper) : (cons name e l).Proper := by
  cases e with
  | file b => exact ⟨hn, hm, hl⟩
  | folder inner => exact ⟨hn, hm, he, hl⟩

theorem not_mem_names_put {n name : RawText} {e : Entry} {l : Listing} (h : ¬ n = name)
    (hn : n ∉ l.names) : n ∉ (l.put name e).names := by
  rw [names_put]
  split <;> simp [hn, h]

theorem proper_put {name : RawText} {e : Entry} {l : Listing} (hn : IsName name) (he : e.Proper)
    (hl : l.Proper) : (l.put name e).Proper := by
  induction l with
  | nil => exact proper_cons hn (by simp [names]) he trivial
  | file n b rest ih =>
    obtain ⟨hname, hm, hr⟩ := hl
    by_cases h : n = name
    · subst h
      simpa [put] using proper_cons hn hm he hr
    · simpa [put, h] using ⟨hname, not_mem_names_put h hm, ih hr⟩
  | folder n inner rest _ ih =>
    obtain ⟨hname, hm, hi, hr⟩ := hl
    by_cases h : n = name
    · subst h
      simpa [put] using proper_cons hn hm he hr
    · simpa [put, h] using ⟨hname, not_mem_names_put h hm, hi, ih hr⟩

theorem proper_of_find? {name : RawText} {e : Entry} {l : Listing} (hl : l.Proper)
    (h : l.find? name = some e) : IsName name ∧ e.Proper := by
  induction l with
  | nil => simp [find?] at h
  | file n b rest ih =>
    obtain ⟨hname, _, hr⟩ := hl
    by_cases hn : n = name
    · simp only [find?, hn, if_true, Option.some.injEq] at h
      subst h
      exact ⟨hn ▸ hname, trivial⟩
    · simp only [find?, hn, if_false] at h
      exact ih hr h
  | folder n inner rest _ ih =>
    obtain ⟨hname, _, hi, hr⟩ := hl
    by_cases hn : n = name
    · simp only [find?, hn, if_true, Option.some.injEq] at h
      subst h
      exact ⟨hn ▸ hname, hi⟩
    · simp only [find?, hn, if_false] at h
      exact ih hr h

theorem proper_set {trail : List RawText} {e : Entry} {l : Listing} (hn : ∀ n ∈ trail, IsName n)
    (he : e.Proper) (hl : l.Proper) : (l.set trail e).Proper := by
  fun_induction set trail e l with
  | case1 => exact hl
  | case2 => exact proper_put (hn _ List.mem_cons_self) he hl
  | case3 n next trail e l inner hf ih =>
    rw [List.forall_mem_cons] at hn
    exact proper_put hn.1 (ih hn.2 he (proper_of_find? hl hf).2) hl
  | case4 => exact hl

end Listing

structure Tree where
  /-- The content of the root. -/
  top : Listing
  /-- The way down to the folder that relative paths begin at. -/
  home : List RawText
  proper : top.Proper

namespace Tree

def empty : Tree := ⟨.nil, [], trivial⟩

def setFile (t : Tree) (trail : List RawText) (bytes : ByteArray) : Tree :=
  if h : ∀ n ∈ trail, IsName n then
    ⟨t.top.set trail (.file bytes), t.home, Listing.proper_set h trivial t.proper⟩
  else t

/-- Puts an empty folder at the end of a trail of names. -/
def setFolder (t : Tree) (trail : List RawText) : Tree :=
  if h : ∀ n ∈ trail, IsName n then
    ⟨t.top.set trail (.folder .nil), t.home, Listing.proper_set h trivial t.proper⟩
  else t

/-- Why a file operation fails. -/
inductive Trouble
  | missing
  | taken
  | notFolder
  | isFolder
  | longName
  | zeroInName
  | notText
  | told (message : Text)
  deriving DecidableEq, Repr

def Trouble.message : Trouble → Text
  | missing => "No such file or directory (os error 2)"
  | taken => "File exists (os error 17)"
  | notFolder => "Not a directory (os error 20)"
  | isFolder => "Is a directory (os error 21)"
  | longName => "File name too long (os error 36)"
  | zeroInName => "file name contained an unexpected NUL byte"
  | notText => "stream did not contain valid UTF-8"
  | told message => message

/-- One step along the parts of a path. Only a folder can be left again, and the root leads up to
itself. -/
def step (t : Tree) (trail : List RawText) (part : RawText) : Except Trouble (List RawText) :=
  match t.top.get? trail with
  | none => .error .missing
  | some (.file _) => .error .notFolder
  | some (.folder inner) =>
    if part = [] || part = [dot] then .ok trail
    else if part = [dot, dot] then .ok trail.dropLast
    else if 255 < part.length then .error .longName
    else if (inner.find? part).isSome then .ok (trail ++ [part])
    else .error .missing

/-- The end of some parts. -/
def follow (t : Tree) : List RawText → List RawText → Except Trouble (List RawText)
  | trail, [] => .ok trail
  | trail, part :: parts =>
    match t.step trail part with
    | .ok next => follow t next parts
    | .error e => .error e

/-- Where a path begins, and the parts to follow from there. -/
def start (t : Tree) (p : RawPath) : List RawText × List RawText :=
  (if p.isAbsolute then [] else t.home, p.bodyParts)

/-- What is wrong with the text of a path, whatever the tree. -/
def textTrouble? (p : RawPath) : Option Trouble :=
  if p.text.contains 0 then some .zeroInName
  else if p.text = [] then some .missing
  else if 4096 ≤ p.text.length then some .longName
  else none

/-- The trail that a path leads along. -/
def locate (t : Tree) (p : RawPath) : Except Trouble (List RawText) :=
  match textTrouble? p with
  | some e => .error e
  | none => t.follow (t.start p).1 (t.start p).2

def entry (t : Tree) (p : RawPath) : Except Trouble Entry := do
  match t.top.get? (← t.locate p) with
  | some e => .ok e
  | none => .error .missing

def isThere (t : Tree) (p : RawPath) : Bool := (t.entry p).isOk

def isFolder (t : Tree) (p : RawPath) : Bool :=
  match t.entry p with
  | .ok (.folder _) => true
  | _ => false

def isFile (t : Tree) (p : RawPath) : Bool :=
  match t.entry p with
  | .ok (.file _) => true
  | _ => false

def read (t : Tree) (p : RawPath) : Except Trouble ByteArray := do
  match ← t.entry p with
  | .file b => .ok b
  | .folder _ => .error .isFolder

def readText (t : Tree) (p : RawPath) : Except Trouble Text := do
  match Text.decode? (← t.read p) with
  | some text => .ok text
  | none => .error .notText

end Tree
end SourceMarks
