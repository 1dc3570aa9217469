import ExtentPlanner.Number.Shortest

/-!
Literal values of a query and the order between them. Planning may evaluate a comparison of two
literals, so the order is the one that execution uses: exact between whole numbers of any sign,
rounded when a whole number meets a floating-point one, by code point for texts, by byte for
binary values. Values of unlike kinds, and two different object references, are not comparable.
-/
namespace ExtentPlanner

/-- A literal value. -/
inductive Scalar where
  | null
  | bool (value : Bool)
  | int (value : Int64)
  | uint (value : UInt64)
  | float (value : Binary64)
  | text (value : String)
  | binary (bytes : List UInt8)
  /-- A reference to the object with this number. -/
  | object (number : UInt64)
  deriving DecidableEq

namespace Scalar

def isNull : Scalar → Bool
  | null => true
  | _ => false

/-- Byte strings in dictionary order. -/
def compareBytes : List UInt8 → List UInt8 → Ordering
  | [], [] => .eq
  | [], _ :: _ => .lt
  | _ :: _, [] => .gt
  | first :: firsts, second :: seconds => (compare first second).then (compareBytes firsts seconds)

/-- The order of two literals, if they are comparable. -/
def compare? : Scalar → Scalar → Option Ordering
  | bool first, bool second => some (compare first.toNat second.toNat)
  | int first, int second => some (compare first.toInt second.toInt)
  | uint first, uint second => some (compare first.toNat second.toNat)
  | int first, uint second => some (compare first.toInt (second.toNat : Int))
  | uint first, int second => some (compare (first.toNat : Int) second.toInt)
  | float first, float second => first.compare? second
  | float first, int second => first.compare? (.ofInt second.toInt)
  | int first, float second => (Binary64.ofInt first.toInt).compare? second
  | float first, uint second => first.compare? (.ofInt second.toNat)
  | uint first, float second => (Binary64.ofInt first.toNat).compare? second
  | text first, text second => some (compare first second)
  | binary first, binary second => some (compareBytes first second)
  | object first, object second => if first = second then some .eq else none
  | _, _ => none

/-- The literal as plans show it. Texts stand between quotes and are not escaped. -/
def written : Scalar → String
  | null => "NULL"
  | bool value => if value then "TRUE" else "FALSE"
  | int value => toString value.toInt
  | uint value => toString value.toNat
  | float value => value.written
  | text value => "'" ++ value ++ "'"
  | binary bytes => "BINARY(" ++ toString bytes.length ++ " bytes)"
  | object number => "OBJECT " ++ toString number.toNat

end Scalar

end ExtentPlanner
