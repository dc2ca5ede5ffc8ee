import SourceMarks.Number.Binary64
import SourceMarks.Text.Basic

/-! The shortest decimal text that reads back as a given number. -/

namespace SourceMarks.Binary64

def exponentAbove (num den : Nat) : Nat := (Nat.toDigits 10 (num / den)).length - 1

/-- How many tenfold steps lift a positive ratio to one. -/
def stepsToOne : (fuel num den : Nat) → Nat
  | 0, _, _ => 0
  | fuel + 1, num, den => if den ≤ num then 0 else stepsToOne fuel (num * 10) den + 1

/-- The exponent of the leading decimal digit of a positive ratio. -/
def decimalExponent (num den : Nat) : Int :=
  if den ≤ num then (exponentAbove num den : Int) else -(stepsToOne 400 num den : Int)

/-- Whether `digits * 10 ^ k` lies in the interval of numbers that round to `x`. The ends belong
to the interval if the significand is even. -/
def readsBack (x : Binary64) (digits : Nat) (k : Int) : Bool :=
  let (up, down) := twoTo x.exponent
  let (tens, tenths) := if 0 ≤ k then (Nat.pow 10 k.toNat, 1) else (1, Nat.pow 10 (-k).toNat)
  let m := x.significand
  let point := 4 * digits * tens * down
  let scale := tenths * up
  let low := (if m = Nat.pow 2 52 && -1074 < x.exponent then 4 * m - 1 else 4 * m - 2) * scale
  let high := (4 * m + 2) * scale
  if m % 2 = 0 then low ≤ point && point ≤ high else low < point && point < high

/-- The neighbours of the magnitude on the decimal grid with the step `10 ^ k`, the nearer first. -/
def neighbours (x : Binary64) (k : Int) : List Nat :=
  let (num, den) := x.ratio
  let (num, den) := if 0 ≤ k then (num, den * Nat.pow 10 k.toNat)
    else (num * Nat.pow 10 (-k).toNat, den)
  let q := num / den
  let r := num % den
  if den < 2 * r || (den = 2 * r && q % 2 = 1) then [q + 1, q] else [q, q + 1]

/-- The fewest digits that read back, searched from `17 - fuel` digits on, with the exponent of
their unit. -/
def shortestFrom (x : Binary64) (lead : Int) : (fuel : Nat) → Nat × Int
  | 0 => (x.significand, 0)
  | fuel + 1 =>
    let k := lead - ((17 - (fuel + 1) : Nat) : Int)
    match (x.neighbours k).find? (fun d => x.readsBack d k) with
    | some d => (d, k)
    | none => shortestFrom x lead fuel

/-- The digits of the magnitude and the exponent of the leading one. -/
def decimal (x : Binary64) : Text × Int :=
  if x.significand = 0 then (['0'], 0)
  else
    let (num, den) := x.ratio
    let (d, k) := shortestFrom x (decimalExponent num den) 17
    let digits := Text.ofNat d
    let lead := k + (digits.length : Int) - 1
    (Text.dropEnd (· = '0') digits, lead)

/-- The text of a number: positional from `1e-5` on and below `1e16`, always with a point there,
and otherwise with a signed exponent. -/
def toText (x : Binary64) : Text :=
  let sign : Text := if x.negative then ['-'] else []
  let (digits, lead) := x.decimal
  let count := digits.length
  sign ++
    if -5 ≤ lead && lead < 0 then
      ['0', '.'] ++ List.replicate ((-lead).toNat - 1) '0' ++ digits
    else if 0 ≤ lead && lead < 16 then
      let whole := lead.toNat + 1
      if count ≤ whole then digits ++ List.replicate (whole - count) '0' ++ ['.', '0']
      else digits.take whole ++ ['.'] ++ digits.drop whole
    else
      let fraction : Text := if count ≤ 1 then [] else '.' :: digits.drop 1
      let mark : Char := if lead < 0 then '-' else '+'
      digits.take 1 ++ fraction ++ ['e', mark] ++ Text.ofNat lead.natAbs

end SourceMarks.Binary64
