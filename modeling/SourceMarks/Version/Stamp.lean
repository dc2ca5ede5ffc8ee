import SourceMarks.Json.Shape
import SourceMarks.Marker.Occurrence
import SourceMarks.Version.Target

/-! Cache markers are dropped, and the lines after them versioned. -/

namespace SourceMarks.Version

/-- The shape of a version in records. -/
def tokenShape : Json.Shape := .text "a string"

/-- Puts the versioned target in the place of each cache marker and its line. -/
def stamp (token text : Text) : Except Fault Text :=
  Marker.noCache.replace text fun o => version o.payload token

end SourceMarks.Version
