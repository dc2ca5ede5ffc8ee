import Mathlib.Data.List.Forall2
import SourceMarks.Directive.Resolve
import SourceMarks.Proofs.Outcome
import SourceMarks.Proofs.Path.Relative

/-!
The files of directives with a base. Main statement: each file is given by a path that leads from
the base to it, if there is one.
-/
namespace SourceMarks.Directive
variable {m : Matcher} {d : Directive} {base : Path} {found files : List Text} {e : Fault}

/-- A file as it is seen from a base. -/
def fromBase (root base : Path) (posix : Bool) (f : Text) : Text :=
  Path.relativize (root.join base) (root.join ⟨f⟩) posix

/-- The files of a directive, given what its globs match. -/
def placed (m : Matcher) (d : Directive) (found : List Text) : List Text :=
  match d.options.base with
  | none => found
  | some base =>
    if m.isThere (m.root.join base) then found.map (fromBase m.root base d.options.posix) else found

theorem resolve_eq (m : Matcher) (d : Directive) :
    d.resolve m = placed m d <$> m.resolve d.globs := by
  rw [resolve]
  cases m.resolve d.globs with
  | error e => rfl
  | ok found =>
    simp only [placed, bind, Except.bind, Functor.map, Except.map]
    cases d.options.base with
    | none => rfl
    | some base => exact (apply_ite Except.ok _ _ _).symm

theorem resolve_eq_error_iff : d.resolve m = .error e ↔ m.resolve d.globs = .error e := by
  rw [resolve_eq, map_eq_error_iff]

end SourceMarks.Directive
