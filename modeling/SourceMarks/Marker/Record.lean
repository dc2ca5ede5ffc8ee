import SourceMarks.Json.Shape
import SourceMarks.Marker.Basic

/-! The names by which records refer to markers. -/

namespace SourceMarks.Marker

def recordName : Marker → Text
  | load => "load"
  | noCache => "no_cache"

def shape : Json.Shape := .choice [recordName load, recordName noCache]

def ofRecordName? (name : Text) : Option Marker :=
  if name = recordName load then some load
  else if name = recordName noCache then some noCache
  else none

end SourceMarks.Marker
