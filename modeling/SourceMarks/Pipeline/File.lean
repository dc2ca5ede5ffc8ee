import SourceMarks.Fault
import SourceMarks.Tree.Write

/-! Files on their way through a pipeline. -/

namespace SourceMarks

inductive Contents
  | null
  | stream
  | buffer (bytes : ByteArray)
  /-- Neither of these; such files pass untouched. -/
  | other

/-- A short form for logs. -/
def Contents.summary : Contents → Text
  | null => "Null"
  | stream => "Stream(..)"
  | buffer bytes => "Buffer(".toList ++ Text.ofNat bytes.size ++ " bytes)".toList
  | other => "Other"

/-- A file with the folder that its path is relative to. -/
structure SourceFile where
  path : RawPath
  base : RawPath
  contents : Contents

namespace SourceFile

def ofPath (path : RawPath) (contents : Contents) : SourceFile :=
  ⟨path, path.parent?.getD ⟨[]⟩, contents⟩

def read (tree : Tree) (path : RawPath) : Except Fault SourceFile :=
  match tree.read path with
  | .ok bytes => .ok (ofPath path (.buffer bytes))
  | .error e => .error (.unreadable path e)

/-- The path below the base, or else the name of the file. -/
def relative (f : SourceFile) : RawPath :=
  let named := match f.path.fileName? with
    | some n => ⟨n⟩
    | none => f.path
  match f.path.below? f.base with
  | some p => if p.text.isEmpty then named else p
  | none => named

/-- Where a file is written: its own path, or its relative path below another folder. -/
def destination (f : SourceFile) : (out : Option RawPath) → RawPath
  | some dir => dir.join f.relative
  | none => f.path

/-- Writes buffered contents, and names the path. Files of other kinds are not written. -/
def write (f : SourceFile) (out : Option RawPath) (tree : Tree) :
    Except (Fault × Tree) (Option RawPath × Tree) :=
  match f.contents with
  | .buffer bytes =>
    let path := f.destination out
    let made := match path.parent? with
      | some folder => tree.makeFolders folder
      | none => .ok tree
    match made with
    | .error (e, made) => .error (.unwritable path e, made)
    | .ok made =>
      match made.write path bytes with
      | .ok written => .ok (some path, written)
      | .error e => .error (.unwritable path e, made)
  | _ => .ok (none, tree)

end SourceFile
end SourceMarks
