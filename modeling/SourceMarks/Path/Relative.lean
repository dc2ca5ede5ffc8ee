import SourceMarks.Path.Basic

/-! Normal forms of paths, and paths relative to a base. Both look at the text of a path only. -/

namespace SourceMarks.Path

/-- One step of normalization. The components so far stand in reverse order. -/
def pushNormal (done : List Component) : Component → List Component
  | .here => done
  | .up =>
    match done with
    | .name _ :: rest => rest
    | .root :: rest => .root :: rest
    | done => .up :: done
  | c => c :: done

/-- The components without `.`, and with each `..` folded into the name before it. -/
def normalComponents (cs : List Component) : List Component :=
  (cs.foldl pushNormal []).reverse

def normalize (p : Path) : Path := ofComponents (normalComponents p.components)

/-- The steps from one list of components to another; none if a `..` of the base has no
counterpart. -/
def steps? : (base target : List Component) → Option (List Component)
  | [], target => some target
  | _ :: base, [] => some (.up :: base.map fun _ => .up)
  | b :: base, t :: target =>
    if b = t then steps? base target
    else if b = .up then none
    else some (.up :: (base.map fun _ => .up) ++ t :: target)

/-- The path from a base to a target, if there is one. An absolute target is its own path from a
relative base. -/
def from? (base target : Path) : Option Path :=
  if target.isAbsolute != base.isAbsolute then
    if target.isAbsolute then some target else none
  else (steps? base.components target.components).map ofComponents

/-- The text of the target relative to the base, or of the target itself if there is no way. -/
def relativize (base target : Path) (posix : Bool) : Text :=
  let target := target.normalize
  let relative := (from? base.normalize target).getD target
  if posix then relative.toPosix else relative.text

end SourceMarks.Path
