import SourceMarks.Tree.Basic

/-! Making folders and writing files. -/

namespace SourceMarks.Tree

open PathSymbol

/-- The parts before the last name, and that name; separators at the end do not matter. -/
def cutLast (parts : List RawText) : List RawText × RawText :=
  let parts := (parts.reverse.dropWhile (· = [])).reverse
  (parts.dropLast, parts.getLast?.getD [])

/-- The folder that the last name of a path stands in, and that name. -/
def slot (t : Tree) (p : RawPath) : Except Trouble (List RawText × RawText) :=
  match textTrouble? p with
  | some e => .error e
  | none => do
    let (parents, name) := cutLast (t.start p).2
    let trail ← t.follow (t.start p).1 parents
    -- An empty part leads nowhere else, but only a folder has it.
    let _ ← t.step trail []
    .ok (trail, name)

def makeFolder (t : Tree) (p : RawPath) : Except Trouble Tree := do
  let (trail, name) ← t.slot p
  if name = [] || name = [dot] || name = [dot, dot] then .error .taken
  else
    match t.step trail name with
    | .ok _ => .error .taken
    | .error .missing => .ok (t.setFolder (trail ++ [name]))
    | .error e => .error e

/-- Makes one folder, unless it is there already. -/
def ensureFolder (t : Tree) (p : RawPath) : Except Trouble Tree :=
  match t.makeFolder p with
  | .ok made => .ok made
  | .error e => if t.isFolder p then .ok t else .error e

/-- Makes a folder and the folders above it that are missing. What was made before a failure
stays. -/
def makeFoldersFrom : (fuel : Nat) → Tree → RawPath → Except (Trouble × Tree) Tree
  | 0, t, _ => .error (.told "failed to create whole tree", t)
  | fuel + 1, t, p =>
    if p.components.isEmpty then .ok t
    else
      match t.ensureFolder p with
      | .ok made => .ok made
      | .error .missing =>
        match p.parent? with
        | none => .error (.told "failed to create whole tree", t)
        | some above => do
          let t ← makeFoldersFrom fuel t above
          (t.ensureFolder p).mapError fun e => (e, t)
      | .error e => .error (e, t)

/-- Makes a folder and the folders above it that are missing. -/
def makeFolders (t : Tree) (p : RawPath) : Except (Trouble × Tree) Tree :=
  makeFoldersFrom (p.components.length + 1) t p

def write (t : Tree) (p : RawPath) (bytes : ByteArray) : Except Trouble Tree := do
  let (trail, name) ← t.slot p
  if name = [] || name = [dot] || name = [dot, dot] || p.text.getLast? = some slash then
    .error .isFolder
  else
    match t.step trail name with
    | .ok found =>
      match t.top.get? found with
      | some (.file _) => .ok (t.setFile found bytes)
      | _ => .error .isFolder
    | .error .missing => .ok (t.setFile (trail ++ [name]) bytes)
    | .error e => .error e

end SourceMarks.Tree
