import SourceMarks.Fault
import SourceMarks.Json.Shape
import SourceMarks.Toml.Reader

/-! Settings, and the TOML file they are read from. -/

namespace SourceMarks

structure Settings where
  /-- The folder that globs and bases are relative to. -/
  root : Path
  /-- A version for the targets of cache markers that is always the same. -/
  version : Option Text
  /-- The extensions of the files that are looked at in folders. -/
  extensions : List Text
  deriving DecidableEq, Repr

namespace Settings

def defaultExtensions : List Text := ["js", "mjs", "ts", "html", "css"]

def default : Settings := ⟨⟨['.']⟩, none, defaultExtensions⟩

def loadJson (root : Path) : Json := .object [("root", .string root.text)]

def noCacheJson (version : Option Text) : Json := .object [("version", .ofText? version)]

def filesJson (extensions : List Text) : Json :=
  .object [("extensions", .array (extensions.map .string))]

def loadShape : Json.Shape :=
  .record "LoadConfig" (.field "root" (.text "path string") (some (.string ['.'])) .none)

def noCacheShape : Json.Shape :=
  .record "NoCacheConfig" (.field "version" (.optional (.text "a string")) none .none)

def filesShape : Json.Shape :=
  .record "FilesConfig"
    (.field "extensions" (.list (.text "a string"))
      (some (.array (defaultExtensions.map .string))) .none)

def shape : Json.Shape :=
  .record "AnnotateConfig"
    (.field "load" loadShape (some (loadJson default.root))
      (.field "no_cache" noCacheShape (some (noCacheJson default.version))
        (.field "files" filesShape (some (filesJson default.extensions)) .none)))

def toJson (s : Settings) : Json :=
  .object [("load", loadJson s.root), ("no_cache", noCacheJson s.version),
    ("files", filesJson s.extensions)]

def textsOf (vs : List Json) : List Text :=
  vs.filterMap fun v =>
    match v with
    | .string s => some s
    | _ => none

def ofJson? : Json → Option Settings
  | .object [(_, .object [(_, .string root)]), (_, .object [(_, version)]),
      (_, .object [(_, .array extensions)])] =>
    match version with
    | .null => some ⟨⟨root⟩, none, textsOf extensions⟩
    | .string v => some ⟨⟨root⟩, some v, textsOf extensions⟩
    | _ => none
  | _ => none

/-- The settings in the text of a file. -/
def parse (path : RawPath) (text : Text) : Except Fault Settings :=
  match Toml.parse text with
  | .error e => .error (.settings path e.message)
  | .ok v =>
    match shape.fit v with
    | .error e => .error (.settings path e.message)
    | .ok v => .ok ((ofJson? v).getD default)

def ofFile (tree : Tree) (path : RawPath) : Except Fault Settings :=
  match tree.readText path with
  | .error e => .error (.unreadable path e)
  | .ok text => parse path text

def defaultFile : RawPath := Path.raw ⟨"annotate.toml"⟩

/-- The settings of the named file, or else of the default file if it is there. -/
def discover (tree : Tree) (named : Option RawPath) : Except Fault Settings :=
  match named with
  | some path => ofFile tree path
  | none => if tree.isFile defaultFile then ofFile tree defaultFile else .ok default

/-- The version to use; `start` stands for the time when the program began. -/
def token (s : Settings) (start : Text) : Text := s.version.getD start

end Settings
end SourceMarks
