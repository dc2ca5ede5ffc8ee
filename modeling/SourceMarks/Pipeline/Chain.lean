import SourceMarks.Expansion
import SourceMarks.Pipeline.File
import SourceMarks.Version.Stamp

/-! Chains of text transforms, and running them over files. -/

namespace SourceMarks

structure Transform where
  name : Text
  apply : Text → Except Fault Text

namespace Transform

def load (m : Matcher) : Transform := ⟨"load", Expansion.expand m⟩

def noCache (token : Text) : Transform := ⟨"no-cache", Version.stamp token⟩

end Transform

abbrev Chain := List Transform

namespace Chain

def name (c : Chain) : Text := Text.join ['+'] (c.map Transform.name)

/-- Applies the transforms in order; the first fault ends it. -/
def apply (c : Chain) (text : Text) : Except Fault Text := c.foldlM (fun t f => f.apply t) text

/-- Transforms a file according to its contents. -/
def process (c : Chain) (f : SourceFile) : Except Fault SourceFile :=
  match f.contents with
  | .null => .ok f
  | .stream => .error .stream
  | .other => .ok f
  | .buffer bytes =>
    match Text.decode? bytes with
    | none => .error (.notText f.path)
    | some text => (c.apply text).map fun new => { f with contents := .buffer (Text.encode new) }

end Chain

/-- The outcome of a run under the name of the chain: the files that came through, and the paths of
the others with what went wrong. -/
structure RunReport where
  transform : Text
  files : List SourceFile
  failures : List (RawPath × Fault)

namespace RunReport

def record (r : RunReport) (path : RawPath) : Except Fault SourceFile → RunReport
  | .ok file => { r with files := r.files ++ [file] }
  | .error e => { r with failures := r.failures ++ [(path, e)] }

def passed (r : RunReport) : Bool := r.failures.isEmpty

end RunReport

namespace Chain

/-- Processes a batch. A file that fails is left out, and the others go on. -/
def run (c : Chain) (files : List SourceFile) : RunReport :=
  files.foldl (fun report f => report.record f.path (c.process f)) ⟨c.name, [], []⟩

end Chain
end SourceMarks
