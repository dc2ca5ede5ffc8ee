import SourceMarks.CommandLine.Run
import Std.Time.DateTime.Timestamp

/-!
The program: reads the files under the working directory into a tree, runs the command on it, and
writes what the command changed.
-/

namespace SourceMarks.CommandLine

/-- The folder that relative paths begin at, with nothing in it, and those above it. -/
def bare : IO Tree := do
  let names := (← IO.currentDir).components.filter (!·.isEmpty)
  let home := names.map fun n => Text.bytes n.toList
  let tree := (List.range home.length).foldl (fun t i => t.setFolder (home.take (i + 1))) Tree.empty
  return { tree with home := home }

/-- Adds what is under the end of a trail to a tree. Only files and folders are looked at. -/
partial def load (tree : Tree) (trail : List String) : IO Tree := do
  let place := (← IO.currentDir) / "/".intercalate trail
  let mut all := tree
  for entry in ← place.readDir do
    let below := trail ++ [entry.fileName]
    let names := tree.home ++ below.map fun n => Text.bytes n.toList
    match (← entry.path.symlinkMetadata).type with
    | .dir => all ← load (all.setFolder names) below
    | .file => all := all.setFile names (← IO.FS.readBinFile entry.path)
    | _ => pure ()
  return all

/-- Writes the files and makes the folders of a tree that were not there before. -/
def save (before after : Tree) : IO Unit := do
  for (path, content) in after.leaves do
    let place := (← IO.currentDir) / String.ofList path.shown
    match content with
    | none => IO.FS.createDirAll place
    | some bytes =>
      match before.read path with
      | .ok old => if old.toList != bytes.toList then IO.FS.writeBinFile place bytes
      | .error _ =>
        match place.parent with
        | some folder => IO.FS.createDirAll folder
        | none => pure ()
        IO.FS.writeBinFile place bytes

end SourceMarks.CommandLine

open SourceMarks in
def main (args : List String) : IO UInt32 := do
  let now := (← Std.Time.Timestamp.now).toMillisecondsSinceUnixEpoch
  let before ← CommandLine.load (← CommandLine.bare) []
  let outcome := CommandLine.run before (toString now.val).toList (args.map String.toList)
  CommandLine.save before outcome.tree
  (← IO.getStdout).putStr (String.ofList outcome.output)
  (← IO.getStderr).putStr (String.ofList outcome.complaint)
  return UInt32.ofNat outcome.exitCode
