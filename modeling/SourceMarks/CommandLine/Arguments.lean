import SourceMarks.Path.Basic
import SourceMarks.Report.Render

/-!
The arguments of the command line: a command, then options and paths in any order. Arguments are
texts here; the paths of a request may hold any bytes.
-/

namespace SourceMarks.CommandLine

inductive Verb
  | load
  | noCache
  | run
  | check
  deriving DecidableEq, Repr

/-- What an option is about. -/
inductive Switch
  | config
  | root
  | format
  | outDir
  | versionToken
  | noResolve
  deriving DecidableEq, Repr

/-- What was asked for: the command, and what the options say. -/
structure Request where
  verb : Verb
  paths : List RawPath
  config : Option RawPath
  root : Option Path
  format : OutputFormat
  outDir : Option RawPath
  versionToken : Option Text
  resolve : Bool
  deriving DecidableEq, Repr

/-- What the arguments ask for. -/
inductive Demand
  | perform (r : Request)
  | version
  | help
  | misuse
  deriving DecidableEq, Repr

def verb? (name : Text) : Option Verb :=
  if name = "load".toList then some .load
  else if name = "no-cache".toList then some .noCache
  else if name = "run".toList then some .run
  else if name = "check".toList then some .check
  else none

def Verb.knows : Verb → Switch → Bool
  | _, .config => true
  | _, .root => true
  | _, .format => true
  | .check, .outDir => false
  | _, .outDir => true
  | .noCache, .versionToken => true
  | .run, .versionToken => true
  | _, .versionToken => false
  | .check, .noResolve => true
  | _, .noResolve => false

def optionNamed? (name : Text) : Option Switch :=
  if name = "config".toList then some .config
  else if name = "root".toList then some .root
  else if name = "format".toList then some .format
  else if name = "out-dir".toList then some .outDir
  else if name = "version-token".toList then some .versionToken
  else if name = "no-resolve".toList then some .noResolve
  else none

def optionLetter? (c : Char) : Option Switch :=
  if c = 'c' then some .config
  else if c = 'f' then some .format
  else if c = 'o' then some .outDir
  else none

/-- The options and paths read so far. An option may be given once. -/
structure Given where
  paths : List RawPath
  options : List (Switch × Text)

namespace Given

def initial : Given := ⟨[], []⟩

def format? (name : Text) : Option OutputFormat :=
  if name = "text".toList then some .text
  else if name = "json".toList then some .json
  else if name = "json-pretty".toList then some .jsonPretty
  else none

/-- Whether an option takes this value. Paths are not empty. -/
def accepts (o : Switch) (value : Text) : Bool :=
  match o with
  | .format => (format? value).isSome
  | .versionToken => true
  | .noResolve => true
  | _ => !value.isEmpty

def addOption (g : Given) (o : Switch) (value : Text) : Option Given :=
  if g.options.any (fun e => e.1 = o) || !accepts o value then none
  else some { g with options := (o, value) :: g.options }

def addPath (g : Given) (p : Text) : Option Given :=
  if p.isEmpty then none else some { g with paths := g.paths ++ [Path.raw ⟨p⟩] }

def value? (g : Given) (o : Switch) : Option Text :=
  (g.options.find? fun e => e.1 = o).map (·.2)

/-- The request once all arguments are read. -/
def request (g : Given) (verb : Verb) : Request where
  verb := verb
  paths := if g.paths.isEmpty then [Path.raw ⟨['.']⟩] else g.paths
  config := (g.value? .config).map fun p => Path.raw ⟨p⟩
  root := (g.value? .root).map Path.mk
  format := ((g.value? .format).bind format?).getD .text
  outDir := (g.value? .outDir).map fun p => Path.raw ⟨p⟩
  versionToken := g.value? .versionToken
  resolve := (g.value? .noResolve).isNone

end Given

/-- What one argument with a hyphen leads to. -/
inductive Effect
  | given (g : Given)
  /-- The next argument is the value of the option. -/
  | waits (o : Switch)
  | help
  | misuse

/-- An option in its long form, after the hyphens. -/
def readLong (verb : Verb) (g : Given) (t : Text) : Effect :=
  let name := t.takeWhile (· != '=')
  let value : Option Text :=
    match t.dropWhile (· != '=') with
    | _ :: v => some v
    | [] => none
  match optionNamed? name, value with
  | none, value => if name = "help".toList && value.isNone then .help else .misuse
  | some o, value =>
    if !verb.knows o then .misuse
    else
      match o, value with
      | .noResolve, none => ((g.addOption .noResolve []).map .given).getD .misuse
      | .noResolve, some _ => .misuse
      | o, some v => ((g.addOption o v).map .given).getD .misuse
      | o, none => .waits o

/-- An option in its short form, after the hyphen. Its value may be attached. -/
def readShort (verb : Verb) (g : Given) (t : Text) : Effect :=
  match t with
  | [] => .misuse
  | 'h' :: _ => .help
  | c :: value =>
    match optionLetter? c with
    | none => .misuse
    | some o =>
      if !verb.knows o then .misuse
      else
        match value with
        | [] => .waits o
        | '=' :: v => ((g.addOption o v).map .given).getD .misuse
        | v => ((g.addOption o v).map .given).getD .misuse

/-- Whether an argument begins an option; a lone hyphen does not. -/
def isOption (t : Text) : Bool := t.head? = some '-' && 1 < t.length

/-- Reads the arguments after the command. `waiting` is the option whose value comes next, and
`plain` tells that two hyphens have ended the options. -/
def readRest (verb : Verb) : (waiting : Option Switch) → (plain : Bool) → Given → List Text → Demand
  | none, _, g, [] => .perform (g.request verb)
  | some _, _, _, [] => .misuse
  | waiting, true, g, arg :: args =>
    match waiting, g.addPath arg with
    | none, some g => readRest verb none true g args
    | _, _ => .misuse
  | some o, false, g, arg :: args =>
    if isOption arg then .misuse
    else
      match g.addOption o arg with
      | some g => readRest verb none false g args
      | none => .misuse
  | none, false, g, arg :: args =>
    if arg = "--".toList then readRest verb none true g args
    else if isOption arg then
      let effect := match arg with
        | '-' :: '-' :: long => readLong verb g long
        | _ => readShort verb g (arg.drop 1)
      match effect with
      | .given g => readRest verb none false g args
      | .waits o => readRest verb (some o) false g args
      | .help => .help
      | .misuse => .misuse
    else
      match g.addPath arg with
      | some g => readRest verb none false g args
      | none => .misuse

/-- The arguments after the command for help: at most the name of one command. -/
def readHelp : List Text → Demand
  | [] => .help
  | [name] => if (verb? name).isSome || name = "help".toList then .help else .misuse
  | _ => .misuse

def read : List Text → Demand
  | [] => .misuse
  | arg :: args =>
    match verb? arg with
    | some verb => readRest verb none false .initial args
    | none =>
      if arg = "--version".toList || arg.take 2 = "-V".toList then .version
      else if arg = "help".toList then readHelp args
      else if arg = "--help".toList || arg.take 2 = "-h".toList then .help
      else .misuse

end SourceMarks.CommandLine
