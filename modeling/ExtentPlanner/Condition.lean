import ExtentPlanner.Operand
import ExtentPlanner.Operator

/-!
Conditions of a query: truth values, comparisons and type assertions under AND, OR and NOT.

This module has the type, its text, and the three questions that decide where a condition goes:
which extents it reads, which of them it tests for null, and which parameters it uses as patterns.
-/
namespace ExtentPlanner

/-- Three-valued truth. -/
inductive Truth where
  | isTrue
  | isFalse
  | unknown
  deriving DecidableEq

namespace Truth

def ofBool (value : Bool) : Truth := if value then isTrue else isFalse

def written : Truth → String
  | isTrue => "TRUE"
  | isFalse => "FALSE"
  | unknown => "UNKNOWN"

end Truth

/-- The type that a type assertion compares with. -/
inductive TypeTarget where
  | named (typeName : String)
  /-- A type that is only known when the query runs. -/
  | parameter (index : Nat)
  deriving DecidableEq

namespace TypeTarget

def written : TypeTarget → String
  | named typeName => typeName
  | parameter index => "?" ++ toString index

end TypeTarget

/-- What has to hold of the rows of a query. -/
inductive Condition where
  | truth (value : Truth)
  | compare (operator : Operator) (left right : Operand)
  /-- The object is of the target type or of a subtype of it. -/
  | isType (object : Operand) (target : TypeTarget)
  | and (left right : Condition)
  | or (left right : Condition)
  | not (inner : Condition)
  deriving DecidableEq

namespace Condition

instance : Inhabited Condition := ⟨truth .isTrue⟩

/-- The condition `operand IS NULL`. -/
def isNull (operand : Operand) : Condition := compare .is operand .null

def isTrueLiteral : Condition → Bool
  | truth .isTrue => true
  | _ => false

/-- All conditions joined by AND, grouped to the left; TRUE if there are none. -/
def conjunction : List Condition → Condition
  | [] => truth .isTrue
  | first :: rest => rest.foldl and first

def written : Condition → String
  | truth value => value.written
  | compare operator left right => left.written ++ " " ++ operator.written ++ " " ++ right.written
  | isType object target => object.written ++ " IS " ++ target.written
  | and left right => "(" ++ left.written ++ " AND " ++ right.written ++ ")"
  | or left right => "(" ++ left.written ++ " OR " ++ right.written ++ ")"
  | not inner => "NOT " ++ inner.written

/-! ## What a condition reads -/

/-- Every extent read anywhere in the condition, from left to right. -/
def extents : Condition → List Nat
  | truth _ => []
  | compare _ left right => left.extents ++ right.extents
  | isType object _ => object.extents
  | and left right | or left right => left.extents ++ right.extents
  | not inner => inner.extents

/-- The set of extents read; the first number that does not fit is the failure. -/
def extentSet (condition : Condition) : Planned ExtentSet := ExtentSet.ofList condition.extents

/-- The extents that a comparison with these operands tests for null. -/
def nullTestedOperands (left right : Operand) : List Nat :=
  if left.isNull then right.extents
  else if right.isNull then left.extents
  else []

/-- Every extent that `IS NULL` or `IS NOT NULL` is asked of, anywhere in the condition. -/
def nullTested : Condition → List Nat
  | compare .is left right | compare .isNot left right => nullTestedOperands left right
  | and left right | or left right => left.nullTested ++ right.nullTested
  | not inner => inner.nullTested
  | truth _ | compare .. | isType .. => []

/-- The set of extents tested; the first number that does not fit is the failure. -/
def nullTestedSet (condition : Condition) : Planned ExtentSet :=
  ExtentSet.ofList condition.nullTested

/-- Every parameter used as a LIKE pattern, from left to right, with repetitions. -/
def patternParameters : Condition → List Nat
  | compare .like _ (.parameter index) => [index]
  | and left right | or left right => left.patternParameters ++ right.patternParameters
  | not inner => inner.patternParameters
  | truth _ | compare .. | isType .. => []

/-- The pattern parameters, each once, in the order of first use. -/
def patternVariables (condition : Condition) : List Nat :=
  condition.patternParameters.eraseDups

end Condition

end ExtentPlanner
