import SourceMarks.Directive.Resolve
import SourceMarks.Json.Writer

/-! Load markers give way to the files of their directives, written as the items of an array. -/

namespace SourceMarks.Expansion

/-- Files as quoted items on lines of their own; an empty string stands for no file. -/
def renderFiles (files : List Text) : Text :=
  if files.isEmpty then ['"', '"'] else Text.join [',', '\n'] (files.map Json.quote)

/-- Puts the files of each label in the place of its marker. -/
def substitute (text : Text) (resolved : Resolved) : Except Fault Text :=
  Marker.load.replace text fun o => do
    let d ← Payload.parse o.payload
    .ok (renderFiles (resolved.filesOf d.label))

def expand (m : Matcher) (text : Text) : Except Fault Text := do
  let registry ← Registry.ofText text
  if registry.isEmpty then .ok text
  else substitute text (← registry.resolve m)

end SourceMarks.Expansion
