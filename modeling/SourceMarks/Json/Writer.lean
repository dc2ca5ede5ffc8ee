import SourceMarks.Json.Basic

/-! The written form of JSON values: compact, or laid out with an indentation of two spaces. -/

namespace SourceMarks.Json

def hexDigit (n : Nat) : Char := Nat.digitChar n

/-- One character inside a string. Quotes, backslashes and control characters are escaped. -/
def escape (c : Char) : Text :=
  if c = '"' then ['\\', '"']
  else if c = '\\' then ['\\', '\\']
  else if c = '\x08' then ['\\', 'b']
  else if c = '\t' then ['\\', 't']
  else if c = '\n' then ['\\', 'n']
  else if c = '\x0c' then ['\\', 'f']
  else if c = '\r' then ['\\', 'r']
  else if c.toNat < 32 then
    ['\\', 'u', '0', '0', hexDigit (c.toNat / 16), hexDigit (c.toNat % 16)]
  else [c]

def quote (s : Text) : Text := '"' :: (s.flatMap escape ++ ['"'])

def Number.toText : Number → Text
  | natural n => Text.ofNat n
  | negative n => '-' :: Text.ofNat n
  | real x => x.toText

mutual
/-- The form without any blank. -/
def compact : Json → Text
  | null => "null"
  | bool true => "true"
  | bool false => "false"
  | number n => n.toText
  | string s => quote s
  | array items => '[' :: (Text.join [','] (compactItems items) ++ [']'])
  | object fields => '\x7b' :: (Text.join [','] (compactFields fields) ++ ['\x7d'])

def compactItems : List Json → List Text
  | [] => []
  | item :: rest => compact item :: compactItems rest

def compactFields : List (Text × Json) → List Text
  | [] => []
  | (key, value) :: rest => (quote key ++ [':'] ++ compact value) :: compactFields rest
end

def newLine (level : Nat) : Text := '\n' :: List.replicate (2 * level) ' '

/-- Parts between brackets, each on a line of its own. -/
def block (opening closing : Char) (level : Nat) (parts : List Text) : Text :=
  if parts.isEmpty then [opening, closing]
  else
    opening :: (newLine (level + 1) ++ Text.join (',' :: newLine (level + 1)) parts ++
      newLine level ++ [closing])

mutual
/-- The form with one item or field per line, from a level of indentation on. -/
def prettyAt (level : Nat) : Json → Text
  | null => "null"
  | bool true => "true"
  | bool false => "false"
  | number n => n.toText
  | string s => quote s
  | array items => block '[' ']' level (prettyItems (level + 1) items)
  | object fields => block '\x7b' '\x7d' level (prettyFields (level + 1) fields)

def prettyItems (level : Nat) : List Json → List Text
  | [] => []
  | item :: rest => prettyAt level item :: prettyItems level rest

def prettyFields (level : Nat) : List (Text × Json) → List Text
  | [] => []
  | (key, value) :: rest =>
    (quote key ++ [':', ' '] ++ prettyAt level value) :: prettyFields level rest
end

/-- The form with one item or field per line. -/
def pretty (v : Json) : Text := prettyAt 0 v

end SourceMarks.Json
