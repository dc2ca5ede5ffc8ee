import SourceMarks.Text.Basic

/-! Colours of text on a terminal. -/

namespace SourceMarks

/-- How a text is set off, by the numbers that terminals know. -/
inductive Style
  | failure
  | caution
  | success
  | count
  | written
  | hint
  | dim

namespace Style

def codes : Style → Text
  | failure => "1;31"
  | caution => "1;33"
  | success => "1;32"
  | count => "33"
  | written => "32"
  | hint => "36"
  | dim => "2"

def reset : Text := ['\x1b', '[', '0', 'm']

def opening (s : Style) : Text := ['\x1b', '['] ++ s.codes ++ ['m']

/-- Begins a style again wherever a text ends it. The second text is what is left of a match. -/
def renew (s : Style) : Text → Text
  | '\x1b' :: '[' :: '0' :: 'm' :: rest => reset ++ s.opening ++ s.renew rest
  | c :: rest => c :: s.renew rest
  | [] => []

def paint (color : Bool) (s : Style) (t : Text) : Text :=
  if color then s.opening ++ s.renew t ++ reset else t

end Style
end SourceMarks
