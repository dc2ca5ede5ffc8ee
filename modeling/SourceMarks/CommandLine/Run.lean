import SourceMarks.Check.Annotations
import SourceMarks.CommandLine.Arguments
import SourceMarks.Pipeline.Chain
import SourceMarks.Settings.Basic

/-!
Running a command against a file tree. All files are read and transformed before the first one is
written, so that every transform sees the tree as it was.
-/

namespace SourceMarks.CommandLine

/-- What a command leaves behind. -/
structure Outcome where
  exitCode : Nat
  output : Text
  /-- Why nothing was done, if so. -/
  complaint : Text
  tree : Tree

/-- The folder that the files under a path are relative to. -/
def baseOf (tree : Tree) (input : RawPath) : RawPath :=
  if tree.isFolder input then input else input.parent?.getD ⟨[]⟩

/-- The files under some paths, each with its path and what reading it gave. -/
def sources (tree : Tree) (extensions : List Text) (inputs : List RawPath) :
    List (RawPath × Except Fault SourceFile) :=
  inputs.flatMap fun input =>
    (tree.discover input extensions).map fun p =>
      (p, (SourceFile.read tree p).map fun f => { f with base := baseOf tree input })

def readable (all : List (RawPath × Except Fault SourceFile)) : List SourceFile :=
  all.filterMap fun s => s.2.toOption

def unreadable (all : List (RawPath × Except Fault SourceFile)) : List (RawPath × Fault) :=
  all.filterMap fun s =>
    match s.2 with
    | .ok _ => none
    | .error e => some (s.1, e)

/-- Writing in progress: the tree, the paths written and the failures. -/
structure Writing where
  tree : Tree
  written : List RawPath
  failures : List (RawPath × Fault)

def writeOne (out : Option RawPath) (w : Writing) (f : SourceFile) : Writing :=
  match f.write out w.tree with
  | .ok (some path, tree) => ⟨tree, w.written ++ [path], w.failures⟩
  | .ok (none, tree) => ⟨tree, w.written, w.failures⟩
  | .error (e, tree) => ⟨tree, w.written, w.failures ++ [(f.path, e)]⟩

def transform (tree : Tree) (settings : Settings) (r : Request) (chain : Chain) : Outcome :=
  let all := sources tree settings.extensions r.paths
  let report := chain.run (readable all)
  let done := report.files.foldl (writeOne r.outDir) ⟨tree, [], []⟩
  let failures := unreadable all ++ report.failures ++ done.failures
  let summary : RunSummary :=
    ⟨chain.name, done.written, failures.map fun f => .ofFault f.1 f.2⟩
  ⟨if summary.passed then 0 else 1, Report.ofRun false r.format summary ++ ['\n'], [], done.tree⟩

def check (tree : Tree) (settings : Settings) (r : Request) : Outcome :=
  let result := Check.checkPaths tree ⟨r.resolve, settings.extensions⟩
    (Matcher.ofTree tree settings.root) r.paths
  ⟨if result.passed then 0 else 1, Report.ofCheck false r.format result ++ ['\n'], [], tree⟩

/-- Performs a request. Settings that cannot be read end it at once. -/
def perform (tree : Tree) (start : Text) (r : Request) : Outcome :=
  match Settings.discover tree r.config with
  | .error e => ⟨2, [], "Error: ".toList ++ e.message ++ ['\n'], tree⟩
  | .ok settings =>
    let settings := { settings with root := r.root.getD settings.root }
    let load := Transform.load (Matcher.ofTree tree settings.root)
    let noCache := Transform.noCache (r.versionToken.getD (settings.token start))
    match r.verb with
    | .load => transform tree settings r [load]
    | .noCache => transform tree settings r [noCache]
    | .run => transform tree settings r [load, noCache]
    | .check => check tree settings r

def versionLine : Text := "annotate 0.1.0\n"

def usage : Text := "Usage: annotate <load|no-cache|run|check> [OPTIONS] [PATHS]...\n"

/-- Runs the program with some arguments; `start` stands for the time when it began. -/
def run (tree : Tree) (start : Text) (args : List Text) : Outcome :=
  match read args with
  | .perform r => perform tree start r
  | .version => ⟨0, versionLine, [], tree⟩
  | .help => ⟨0, usage, [], tree⟩
  | .misuse => ⟨2, [], usage, tree⟩

end SourceMarks.CommandLine
