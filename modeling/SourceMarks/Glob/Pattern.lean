import SourceMarks.Glob.Expression

/-!
Glob patterns. `*` and `?` stay within a segment, `**` as a whole segment takes any number of them,
sets stand in brackets, alternatives in braces, and a backslash takes the next character as it is.
Matching looks at bytes.
-/

namespace SourceMarks.Glob

inductive Token
  | literal (c : Char)
  /-- `?` -/
  | any
  /-- `*` -/
  | star
  /-- `**` at the beginning of a pattern or an alternative. -/
  | leading
  /-- `**` at the end. -/
  | trailing
  /-- `**` between two separators. -/
  | between
  | set (negated : Bool) (ranges : List (Char × Char))
  /-- Alternatives in braces. -/
  | group (e : Expression)

def inSegment (b : UInt8) : Bool := b != 47

def anyByte (_ : UInt8) : Bool := true

def slash : Expression := .byte (· == 47)

/-- The bytes a range adds to a set. Of a longer character each byte stands for itself; only
the last one of the lower bound and the first one of the upper bound form a range. -/
def rangeBytes (r : Char × Char) : List (UInt8 × UInt8) :=
  let low := String.utf8EncodeChar r.1
  let single := fun b : UInt8 => (b, b)
  if r.1 = r.2 then low.map single
  else
    let high := String.utf8EncodeChar r.2
    low.dropLast.map single ++ [(low.getLast?.getD 0, high.head?.getD 0)] ++ high.tail.map single

def inSet (negated : Bool) (ranges : List (Char × Char)) (b : UInt8) : Bool :=
  ((ranges.flatMap rangeBytes).any fun r => r.1 ≤ b && b ≤ r.2) != negated

def Token.expression : Token → Expression
  | literal c => .literal [c]
  | any => .byte inSegment
  | star => .run inSegment
  | leading => .alt (.alt slash .empty) (.seq (.run anyByte) slash)
  | trailing => .seq slash (.run anyByte)
  | between => .alt slash (.seq slash (.seq (.run anyByte) slash))
  | set negated ranges => .byte (inSet negated ranges)
  | group e => e

/-- What is wrong with a pattern. -/
inductive Problem
  | unclosedSet
  | badRange (low high : Char)
  | unopenedGroup
  | unclosedGroup
  | danglingEscape
  deriving DecidableEq, Repr

def Problem.message : Problem → Text
  | unclosedSet => "unclosed character class; missing ']'"
  | badRange low high =>
    "invalid range; '".toList ++ [low] ++ "' > '".toList ++ [high] ++ ['\'']
  | unopenedGroup =>
    "unopened alternate group; missing '\x7b' (maybe escape '\x7d' with '[\x7d]'?)"
  | unclosedGroup =>
    "unclosed alternate group; missing '\x7d' (maybe escape '\x7b' with '[\x7b]'?)"
  | danglingEscape => "dangling '\\'"

structure Fault where
  pattern : Text
  problem : Problem
  deriving DecidableEq, Repr

def Fault.message (f : Fault) : Text :=
  "error parsing glob '".toList ++ f.pattern ++ "': ".toList ++ f.problem.message

/-- An open brace: the tokens before it and the finished alternatives, both from the end. -/
structure Opening where
  before : List Token
  finished : List (List Token)

/-- A pattern that is read in part: the tokens of the current branch, from the end, and the open
braces, the innermost first. -/
structure Draft where
  branch : List Token
  openings : List Opening

namespace Draft

def push (d : Draft) (t : Token) : Draft := { d with branch := t :: d.branch }

def enter (d : Draft) : Draft := ⟨[], ⟨d.branch, []⟩ :: d.openings⟩

def turn (d : Draft) : Draft :=
  match d.openings with
  | [] => d.push (.literal ',')
  | o :: outer => ⟨[], { o with finished := d.branch :: o.finished } :: outer⟩

def expressionOf (branch : List Token) : Expression :=
  .sequence (branch.reverse.map Token.expression)

/-- A closing brace. Alternatives that are written as nothing are left out. -/
def leave? (d : Draft) : Option Draft :=
  match d.openings with
  | [] => none
  | o :: outer =>
    let branches := ((d.branch :: o.finished).reverse.map expressionOf).filter (!·.isEmpty)
    some ⟨.group (.anyOf branches) :: o.before, outer⟩

/-- A double star that stands for two single ones. -/
def stars (d : Draft) : Draft := (d.push .star).push .star

/-- A double star after a separator. It takes the place of that separator. -/
def join (d : Draft) (t : Token) : Draft :=
  match d.branch with
  | .leading :: before => ⟨.leading :: before, d.openings⟩
  | .trailing :: before => ⟨.trailing :: before, d.openings⟩
  | _ :: before => ⟨t :: before, d.openings⟩
  | [] => ⟨[t], d.openings⟩

/-- Whether a double star may begin here as a whole segment, by the character before it. -/
def atSegment (d : Draft) (prev : Option Char) : Bool :=
  prev = some '/' || (!d.openings.isEmpty && (prev = some ',' || prev = some '\x7b'))

end Draft

mutual
/-- Reads a pattern; `prev` is the character before the text. -/
def read (d : Draft) (prev : Option Char) : Text → Except Problem Draft
  | [] => if d.openings.isEmpty then .ok d else .error .unclosedGroup
  | '?' :: rest => read (d.push .any) (some '?') rest
  | '*' :: '*' :: rest =>
    if d.branch.isEmpty then
      match rest with
      | [] => read (d.push .leading) (some '*') []
      | '/' :: more => read (d.push .leading) (some '/') more
      | c :: more => read d.stars (some '*') (c :: more)
    else if !d.atSegment prev then read d.stars (some '*') rest
    else
      match rest with
      | [] => read (d.join .trailing) (some '*') []
      | '/' :: more => read (d.join .between) (some '/') more
      | c :: more =>
        if (c = ',' || c = '\x7d') && !d.openings.isEmpty then
          read (d.join .trailing) (some '*') (c :: more)
        else read d.stars (some '*') (c :: more)
  | '*' :: rest => read (d.push .star) (some '*') rest
  | '[' :: '!' :: rest => readSet d true [] true false rest
  | '[' :: '^' :: rest => readSet d true [] true false rest
  | '[' :: rest => readSet d false [] true false rest
  | '\x7b' :: rest => read d.enter (some '\x7b') rest
  | '\x7d' :: rest =>
    match d.leave? with
    | none => .error .unopenedGroup
    | some d => read d (some '\x7d') rest
  | ',' :: rest => read d.turn (some ',') rest
  | ['\\'] => .error .danglingEscape
  | '\\' :: c :: rest => read (d.push (.literal c)) (some c) rest
  | c :: rest => read (d.push (.literal c)) (some c) rest

/-- Reads the rest of a set. The ranges stand from the end, `first` tells that nothing was read,
and `open` that a hyphen waits for the end of a range. -/
def readSet (d : Draft) (negated : Bool) (ranges : List (Char × Char)) (first waiting : Bool) :
    Text → Except Problem Draft
  | [] => .error .unclosedSet
  | c :: rest =>
    if c = ']' && !first then
      let ranges := if waiting then ('-', '-') :: ranges else ranges
      read (d.push (.set negated ranges.reverse)) (some ']') rest
    else if c = '-' && !first && !waiting then readSet d negated ranges false true rest
    else
      match waiting, ranges with
      | true, (low, _) :: others =>
        if c < low then .error (.badRange low c)
        else readSet d negated ((low, c) :: others) false false rest
      | _, ranges => readSet d negated ((c, c) :: ranges) false false rest
end

/-- The expression of all tokens of a pattern, given from the end. A lone `**` takes everything. -/
def patternExpression : List Token → Expression
  | [.leading] => .run anyByte
  | branch => Draft.expressionOf branch

def compile (pattern : Text) : Except Fault Expression :=
  match read ⟨[], []⟩ none pattern with
  | .ok d => .ok (patternExpression d.branch)
  | .error p => .error ⟨pattern, p⟩

def Expression.matches (e : Expression) (path : Text) : Bool := e.accepts path.bytes

end SourceMarks.Glob
