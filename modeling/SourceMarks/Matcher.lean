import SourceMarks.Fault
import SourceMarks.Glob.Split
import SourceMarks.Tree.Walk

/-!
Matchers expand an ordered list of patterns to paths. Each pattern adds its matches in byte order,
without those already there; a pattern after `!` removes what it matches. A wildcard matches no name
that begins with a point unless its segment begins with one too. Patterns and the root are texts,
and so is what is found: a name that encodes no text is found as it is shown.
-/

namespace SourceMarks

structure Matcher where
  /-- The folder that patterns and bases are relative to. -/
  root : Path
  /-- Whether a path leads anywhere. -/
  isThere : Path → Bool
  resolve : List Text → Except Fault (List Text)

namespace Matcher

def compile (pattern : Text) : Except Fault Glob.Expression :=
  (Glob.compile pattern).mapError (.invalidPattern pattern)

/-- The path of an entry below a lead, in the form of the pattern. -/
def candidate (lead : Text) (names : List RawText) : Text :=
  Glob.joinLead lead (Text.join ['/'] (names.map RawText.shown))

/-- The paths that one pattern may match, below the folder at a path. -/
def candidates (inner : Listing) (folder : RawPath) (lead rest : Text) : List Text :=
  (inner.walk (Glob.reachOf rest).admits 1 folder).map (candidate lead)

/-- The matches of one pattern, in byte order. A pattern without wildcards matches itself if it is
there. Below a folder that is not there nothing matches, and the pattern is not looked at. -/
def expand (tree : Tree) (root : Path) (pattern : Text) : Except Fault (List Text) :=
  if !Glob.hasMagic pattern then
    .ok (if tree.isThere (root.join ⟨pattern⟩).raw then [pattern] else [])
  else
    let (lead, rest) := Glob.splitStatic pattern
    let folder := (root.join ⟨lead⟩).raw
    match tree.folderAt? folder with
    | none => .ok []
    | some inner => do
      let e ← compile pattern
      .ok (Text.sort ((candidates inner folder lead rest).filter e.matches))

def addNew (files : List Text) (f : Text) : List Text :=
  if files.contains f then files else files ++ [f]

/-- One pattern's effect on the paths collected so far. -/
def apply (expand : Text → Except Fault (List Text)) (files : List Text) (pattern : Text) :
    Except Fault (List Text) :=
  match pattern with
  | '!' :: negated => do
    let e ← compile negated
    .ok (files.filter fun f => !e.matches f)
  | _ => do
    let found ← expand pattern
    .ok (found.foldl addNew files)

def collect (expand : Text → Except Fault (List Text)) (patterns : List Text) :
    Except Fault (List Text) :=
  patterns.foldlM (apply expand) []

def ofTree (tree : Tree) (root : Path) : Matcher :=
  ⟨root, fun p => tree.isThere p.raw, collect (expand tree root)⟩

/-- A matcher that has the same answer to all patterns. -/
def constant (tree : Tree) (root : Path) (files : List Text) : Matcher :=
  ⟨root, fun p => tree.isThere p.raw, fun _ => .ok files⟩

end Matcher
end SourceMarks
