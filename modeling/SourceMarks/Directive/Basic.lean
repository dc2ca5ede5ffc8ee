import SourceMarks.Json.Shape
import SourceMarks.Path.Basic

/-! Load directives: a label, the globs of its files, and options. -/

namespace SourceMarks

structure Options where
  base : Option Path
  posix : Bool
  deriving DecidableEq, Repr

def Options.default : Options := ⟨none, false⟩

structure Directive where
  label : Text
  globs : List Text
  options : Options
  deriving DecidableEq, Repr

namespace Options

def shape : Json.Shape :=
  .record "LoadOptions"
    (.field "base" (.optional (.text "path string")) (some .null)
      (.field "posix" .flag (some (.bool false)) .none))

def toJson (o : Options) : Json :=
  .object [("base", .ofText? (o.base.map Path.text)), ("posix", .bool o.posix)]

def ofJson? : Json → Option Options
  | .object [(_, .null), (_, .bool posix)] => some ⟨none, posix⟩
  | .object [(_, .string base), (_, .bool posix)] => some ⟨some ⟨base⟩, posix⟩
  | _ => none

end Options

namespace Directive

def shape : Json.Shape :=
  .record "LoadDirective"
    (.field "label" (.text "a string") none
      (.field "globs" (.list (.text "a string")) none
        (.field "options" Options.shape none .none)))

def toJson (d : Directive) : Json :=
  .object [("label", .string d.label), ("globs", .array (d.globs.map .string)),
    ("options", d.options.toJson)]

def textsOf? : List Json → Option (List Text)
  | [] => some []
  | .string s :: rest => (textsOf? rest).map (s :: ·)
  | _ => none

def ofJson? : Json → Option Directive
  | .object [(_, .string label), (_, .array globs), (_, options)] =>
    match textsOf? globs, Options.ofJson? options with
    | some globs, some options => some ⟨label, globs, options⟩
    | _, _ => none
  | _ => none

end Directive
end SourceMarks
