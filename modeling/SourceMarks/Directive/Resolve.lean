import SourceMarks.Directive.Registry
import SourceMarks.Matcher
import SourceMarks.Path.Relative

/-! The files of directives, and the text in which they take the place of the markers. -/

namespace SourceMarks

/-- The files of a directive. If its base is there, they are given relative to the base. -/
def Directive.resolve (m : Matcher) (d : Directive) : Except Fault (List Text) := do
  let files ← m.resolve d.globs
  match d.options.base with
  | none => .ok files
  | some base =>
    let base := m.root.join base
    if m.isThere base then
      .ok (files.map fun f => Path.relativize base (m.root.join ⟨f⟩) d.options.posix)
    else .ok files

abbrev Resolved := List (Text × List Text)

namespace Resolved

/-- The files of a label; none for an unknown one. -/
def filesOf (r : Resolved) (label : Text) : List Text :=
  ((r.find? fun e => e.1 = label).map (·.2)).getD []

end Resolved

/-- The files of all directives. -/
def Registry.resolve (m : Matcher) (r : Registry) : Except Fault Resolved :=
  r.directives.mapM fun d => (d.resolve m).map fun files => (d.label, files)

end SourceMarks
