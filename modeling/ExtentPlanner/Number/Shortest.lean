import ExtentPlanner.Number.Binary64

/-!
Shortest decimal text of a 64-bit floating-point number: the fewest digits that read back as the
same number, and among those the nearest. Costs and floating-point literals are shown this way, in
positional notation without an exponent and without a decimal point after a whole number.

The numbers that read back as a given one form an interval around it. A decimal grid, the
multiples of a power of ten, has a point in that interval exactly when one of the two grid points
next to the number is in it, so the search tries the grids from coarse to fine and stops at the
first that has one.
-/
namespace ExtentPlanner.Shortest

/-- A positive number between two bounds, all three over one denominator. The bounds count as
inside when `closed` holds. -/
structure Interval where
  low : Nat
  value : Nat
  high : Nat
  denominator : Nat
  closed : Bool

namespace Interval

/-- Whether a point is inside, given as its numerator over the interval's denominator. -/
def contains (interval : Interval) (point : Nat) : Bool :=
  if interval.closed then interval.low ≤ point && point ≤ interval.high
  else interval.low < point && point < interval.high

/-- The interval with all parts measured in units of `10 ^ place`: its denominator takes the powers
of ten of a coarse grid, its other parts those of a fine one. -/
def onGrid (interval : Interval) (place : Int) : Interval :=
  if 0 ≤ place then { interval with denominator := interval.denominator * Nat.pow 10 place.toNat }
  else
    let scale := Nat.pow 10 (-place).toNat
    { interval with
      low := interval.low * scale
      value := interval.value * scale
      high := interval.high * scale }

/-- The grid point that stands for the number on the grid of unit `10 ^ place`, if one of its two
neighbours is inside: the nearer one if both are, and the upper one of two equally near. -/
def gridPoint? (interval : Interval) (place : Int) : Option Nat :=
  let scaled := interval.onGrid place
  let floor := scaled.value / scaled.denominator
  let below := floor * scaled.denominator
  let above := below + scaled.denominator
  match scaled.contains below, scaled.contains above with
  | true, true =>
    if above - scaled.value ≤ scaled.value - below then some (floor + 1) else some floor
  | true, false => some floor
  | false, true => some (floor + 1)
  | false, false => none

/-- Tries `tries` grids, each ten times finer than the one before. -/
def firstGridPoint (interval : Interval) : (tries : Nat) → (place : Int) → Nat × Int
  | 0, place => ((interval.onGrid place).value / (interval.onGrid place).denominator, place)
  | tries + 1, place =>
    match interval.gridPoint? place with
    | some point => (point, place)
    | none => interval.firstGridPoint tries (place - 1)

end Interval

/-- The numbers nearer to a finite non-zero number than to its neighbours, measured in quarters of
its unit. The lower neighbour of a power of two is only half as far as the upper one. -/
def interval (number : Binary64) : Interval :=
  let quadruple := 4 * number.significand
  let lowerGap := if number.fraction = 0 ∧ 1 < number.exponentField then 1 else 2
  let quarterExponent := number.exponent - 2
  let scale := 1 <<< quarterExponent.toNat
  { low := (quadruple - lowerGap) * scale
    value := quadruple * scale
    high := (quadruple + 2) * scale
    denominator := 1 <<< (-quarterExponent).toNat
    closed := number.significand % 2 == 0 }

/-- A grid that is certainly too coarse for the number, from its binary logarithm: 30103 / 100000
is slightly more than the decimal logarithm of two. -/
def coarsestPlace (number : Binary64) : Int :=
  let top := number.exponent + Nat.log2 number.significand + 1
  top * 30103 / 100000 + 2

/-- Digits and place of the shortest decimal of a finite non-zero number. Seventeen digits always
suffice, and the search starts at most three places above the first of them. -/
def digits (number : Binary64) : Nat × Int :=
  (interval number).firstGridPoint 24 (coarsestPlace number)

/-- The decimal `digits * 10 ^ place` in positional notation. -/
def positional (digits : Nat) (place : Int) : String :=
  let written := toString digits
  if 0 ≤ place then written ++ "".pushn '0' place.toNat
  else
    let places := (-place).toNat
    if places < written.length then
      String.ofList (written.toList.take (written.length - places)) ++ "."
        ++ String.ofList (written.toList.drop (written.length - places))
    else "0." ++ "".pushn '0' (places - written.length) ++ written

end ExtentPlanner.Shortest

namespace ExtentPlanner

namespace Binary64

/-- The magnitude of a number that is not NaN. -/
def writtenMagnitude (number : Binary64) : String :=
  if number.isInfinite then "inf"
  else if number.isZero then "0"
  else
    let (digits, place) := Shortest.digits number
    Shortest.positional digits place

/-- The shortest decimal text that reads back as the number; zero keeps its sign. -/
def written (number : Binary64) : String :=
  if number.isNaN then "NaN"
  else if number.isNegative then "-" ++ number.writtenMagnitude
  else number.writtenMagnitude

end Binary64

end ExtentPlanner
