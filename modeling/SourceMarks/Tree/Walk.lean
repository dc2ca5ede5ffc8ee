import SourceMarks.Tree.Basic

/-!
Walks through folders: which entries there are below a place. A walk opens each folder by its whole
path, and passes over the content of one whose path is too long.
-/

namespace SourceMarks

open PathSymbol

namespace Listing

/-- The entries at any depth of the folder at a path, as names from there down. An entry is passed
over, with all below it, unless it is admitted at its depth; the first level has the given depth. -/
def walk (keep : Nat → RawText → Bool) : (depth : Nat) → RawPath → Listing → List (List RawText)
  | _, _, nil => []
  | d, p, file n _ rest => (if keep d n then [[n]] else []) ++ walk keep d p rest
  | d, p, folder n inner rest =>
    let inside :=
      if (Tree.textTrouble? (p.join ⟨n⟩)).isNone then walk keep (d + 1) (p.join ⟨n⟩) inner else []
    (if keep d n then [n] :: inside.map (n :: ·) else []) ++ walk keep d p rest

def files : RawPath → Listing → List (List RawText)
  | _, nil => []
  | p, file n _ rest => [n] :: files p rest
  | p, folder n inner rest =>
    let inside := if (Tree.textTrouble? (p.join ⟨n⟩)).isNone then files (p.join ⟨n⟩) inner else []
    inside.map (n :: ·) ++ files p rest

/-- The files with their bytes, and the empty folders with none. -/
def leaves : Listing → List (List RawText × Option ByteArray)
  | nil => []
  | file n b rest => ([n], some b) :: leaves rest
  | folder n nil rest => ([n], none) :: leaves rest
  | folder n inner rest => (leaves inner).map (fun l => (n :: l.1, l.2)) ++ leaves rest

end Listing

namespace Tree

def folderAt? (t : Tree) (p : RawPath) : Option Listing :=
  match t.entry p with
  | .ok (.folder inner) => some inner
  | _ => none

/-- Whether the file name has one of the extensions. Points in front of a listed extension do not
matter, and an empty list admits every file. -/
def hasExtension (extensions : List Text) (p : RawPath) : Bool :=
  extensions.isEmpty ||
    match p.extension?.bind RawText.toText? with
    | none => false
    | some ending => extensions.any fun e => e.dropWhile (· = '.') = ending

/-- The files to process under a path: a file itself, whatever its extension, or the files of a
folder that have one of the extensions, in order. -/
def discover (t : Tree) (p : RawPath) (extensions : List Text) : List RawPath :=
  if t.isFile p then [p]
  else
    match t.folderAt? p with
    | none => []
    | some inner => Path.sort (((inner.files p).map p.under).filter (hasExtension extensions))

/-- The files and the empty folders below the working folder, by their paths from there. -/
def leaves (t : Tree) : List (RawPath × Option ByteArray) :=
  match t.top.get? t.home with
  | some (.folder inner) => inner.leaves.map fun l => (⟨Text.join [slash] l.1⟩, l.2)
  | _ => []

end Tree
end SourceMarks
