/-!
Binary floating-point numbers of 64 bits. A number is its bit pattern, so that two of them are
equal exactly when they are written the same way, and order and rounding are computed on whole
numbers.

A finite number has the magnitude `significand * 2 ^ exponent`. Magnitudes grow with the pattern
below the sign bit, which is why `orderKey` puts all numbers except NaN in order.
-/
namespace ExtentPlanner

/-- A 64-bit floating-point number: one sign bit, 11 exponent bits, 52 fraction bits. -/
structure Binary64 where
  bits : UInt64
  deriving DecidableEq

namespace Binary64

def ofFloat (value : Float) : Binary64 := ⟨value.toBits⟩

def toFloat (number : Binary64) : Float := Float.ofBits number.bits

/-- The pattern of the sign bit alone. -/
def signUnit : Nat := 1 <<< 63

/-- The pattern of the lowest exponent bit alone, which is the number of fractions. -/
def exponentUnit : Nat := 1 <<< 52

def isNegative (number : Binary64) : Bool := signUnit ≤ number.bits.toNat

/-- The pattern without its sign bit. -/
def magnitude (number : Binary64) : Nat := number.bits.toNat % signUnit

def exponentField (number : Binary64) : Nat := number.magnitude / exponentUnit

def fraction (number : Binary64) : Nat := number.magnitude % exponentUnit

/-- The magnitude of both infinities. -/
def infinityMagnitude : Nat := 2047 * exponentUnit

def isNaN (number : Binary64) : Bool := infinityMagnitude < number.magnitude

def isInfinite (number : Binary64) : Bool := number.magnitude == infinityMagnitude

def isZero (number : Binary64) : Bool := number.magnitude == 0

/-- Whole number that `2 ^ exponent` is multiplied with. Numbers with exponent field zero have no
leading one. -/
def significand (number : Binary64) : Nat :=
  if number.exponentField = 0 then number.fraction else number.fraction + exponentUnit

def exponent (number : Binary64) : Int :=
  if number.exponentField = 0 then -1074 else (number.exponentField : Int) - 1075

/-- A whole number with the same order as the numbers themselves; both zeros have key 0. -/
def orderKey (number : Binary64) : Int :=
  if number.isNegative then -(number.magnitude : Int) else number.magnitude

/-- The order of two numbers. NaN is not comparable with anything, itself included. -/
def compare? (first second : Binary64) : Option Ordering :=
  if first.isNaN || second.isNaN then none else some (compare first.orderKey second.orderKey)

/-! ## Whole numbers -/

/-- Divides by `2 ^ places` and rounds to nearest; a half goes to the even neighbour. -/
def roundShift (value places : Nat) : Nat :=
  let quotient := value >>> places
  let unit := 1 <<< places
  let twice := 2 * (value % unit)
  if twice > unit || (twice == unit && quotient % 2 == 1) then quotient + 1
  else quotient

/-- The pattern of the number nearest to a whole number, which must be below 2^1023. A carry out
of the fraction moves into the exponent field, where it belongs. -/
def patternOfNat (value : Nat) : Nat :=
  if value = 0 then 0
  else
    let top := Nat.log2 value
    let significand := if top ≤ 52 then value <<< (52 - top) else roundShift value (top - 52)
    (top + 1022) * exponentUnit + significand

/-- The number nearest to an integer of at most 64 bits. -/
def ofInt (value : Int) : Binary64 :=
  let pattern := patternOfNat value.natAbs
  ⟨UInt64.ofNat (if value < 0 then signUnit + pattern else pattern)⟩

end Binary64

end ExtentPlanner
