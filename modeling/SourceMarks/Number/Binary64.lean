/-!
Numbers of the format binary64, kept as exact values: a sign and a magnitude
`significand * 2 ^ exponent`. Rounding is to the nearest number, and a tie goes to the even
significand.
-/

namespace SourceMarks

/-- A finite number of the format. The significand is below `2 ^ 53`, and at least `2 ^ 52`
unless the exponent is `-1074`. -/
structure Binary64 where
  negative : Bool
  significand : Nat
  exponent : Int
  deriving DecidableEq, Repr

namespace Binary64

def twoTo (e : Int) : Nat × Nat :=
  if 0 ≤ e then (Nat.pow 2 e.toNat, 1) else (1, Nat.pow 2 (-e).toNat)

/-- The quotient rounded to a whole number, ties to even. -/
def roundQuotient (num den : Nat) : Nat :=
  let q := num / den
  let r := num % den
  if den < 2 * r || (den = 2 * r && q % 2 = 1) then q + 1 else q

/-- The exponent at which the ratio has a significand of 53 bits, but never less than `-1074`. -/
def exponentOf (num den : Nat) : Int :=
  let difference : Int := (num.log2 : Int) - (den.log2 : Int) - 53
  let guess := if difference < -1074 then -1074 else difference
  let (up, down) := twoTo guess
  if Nat.pow 2 53 ≤ num * down / (den * up) then guess + 1 else guess

/-- The number nearest to a ratio; none if that is beyond the largest one. -/
def ofRatio? (negative : Bool) (num den : Nat) : Option Binary64 :=
  if num = 0 then some ⟨negative, 0, -1074⟩
  else
    let e := exponentOf num den
    let (up, down) := twoTo e
    let m := roundQuotient (num * down) (den * up)
    let (m, e) := if m = Nat.pow 2 53 then (Nat.pow 2 52, e + 1) else (m, e)
    if 971 < e then none else some ⟨negative, m, e⟩

def ratio (x : Binary64) : Nat × Nat :=
  let (up, down) := twoTo x.exponent
  (x.significand * up, down)

/-- The rounded product; the sign is that of the left factor. -/
def mul? (x y : Binary64) : Option Binary64 :=
  ofRatio? x.negative (x.ratio.1 * y.ratio.1) (x.ratio.2 * y.ratio.2)

/-- The rounded quotient; the sign is that of the dividend. -/
def div? (x y : Binary64) : Option Binary64 :=
  ofRatio? x.negative (x.ratio.1 * y.ratio.2) (x.ratio.2 * y.ratio.1)

/-- The number nearest to a power of ten, for exponents up to 308. -/
def tenTo? (k : Nat) : Option Binary64 := ofRatio? false (Nat.pow 10 k) 1

/-- Divides by `10 ^ 308` until the decimal exponent fits, at most `steps` times. -/
def lower (steps : Nat) (x : Binary64) (exponent : Nat) : Option Binary64 :=
  if exponent ≤ 308 then (tenTo? exponent).bind x.div?
  else
    match steps with
    | 0 => some { x with significand := 0, exponent := -1074 }
    | steps + 1 =>
      if x.significand = 0 then some x
      else ((tenTo? 308).bind x.div?).bind fun y => lower steps y (exponent - 308)

/-- The value of `significand * 10 ^ exponent`. The significand is rounded first, then its product
with the rounded power, or its quotient by it. None if it is too large. -/
def ofScientific? (negative : Bool) (significand : Nat) (exponent : Int) : Option Binary64 :=
  (ofRatio? negative significand 1).bind fun x =>
    if exponent < 0 then lower 4 x (-exponent).toNat
    else if exponent ≤ 308 then (tenTo? exponent.toNat).bind x.mul?
    else if x.significand = 0 then some x
    else none

end Binary64
end SourceMarks
