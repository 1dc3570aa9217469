import ExtentPlanner.Error

/-!
Comparison operators. All but the two pattern operators have a mirrored form, which says the same
with the operands exchanged; `reverse?_reverse?` shows that mirroring twice changes nothing.
-/
namespace ExtentPlanner

/-- How a comparison relates its two operands. -/
inductive Operator where
  | equal
  | notEqual
  | less
  | lessOrEqual
  | greater
  | greaterOrEqual
  | is
  | isNot
  | like
  | startsWith
  deriving DecidableEq

namespace Operator

def written : Operator → String
  | equal => "="
  | notEqual => "<>"
  | less => "<"
  | lessOrEqual => "<="
  | greater => ">"
  | greaterOrEqual => ">="
  | is => "IS"
  | isNot => "IS NOT"
  | like => "LIKE"
  | startsWith => "STARTS WITH"

/-- Whether an index range can be built from the operator. -/
def isRange : Operator → Bool
  | equal | less | lessOrEqual | greater | greaterOrEqual | startsWith => true
  | notEqual | is | isNot | like => false

/-- The operator with its operands exchanged, if it has such a form. -/
def reverse? : Operator → Option Operator
  | equal => some equal
  | notEqual => some notEqual
  | less => some greater
  | lessOrEqual => some greaterOrEqual
  | greater => some less
  | greaterOrEqual => some lessOrEqual
  | is => some is
  | isNot => some isNot
  | like | startsWith => none

def isReversible (operator : Operator) : Bool := operator.reverse?.isSome

/-- The mirrored operator, or the failure that there is none. -/
def reverse (operator : Operator) : Planned Operator :=
  match operator.reverse? with
  | some mirrored => .ok mirrored
  | none => .error (.internal (.irreversibleOperator operator.written))

theorem reverse?_reverse? {operator mirrored : Operator}
    (exchanged : operator.reverse? = some mirrored) : mirrored.reverse? = some operator := by
  cases operator <;> cases exchanged <;> rfl

/-- Whether the operator holds of two values in this order; pattern operators are not decided by
order. -/
def holds? : Operator → Ordering → Option Bool
  | equal, order | is, order => some (order == .eq)
  | notEqual, order | isNot, order => some (order != .eq)
  | less, order => some (order == .lt)
  | lessOrEqual, order => some (order != .gt)
  | greater, order => some (order == .gt)
  | greaterOrEqual, order => some (order != .lt)
  | like, _ | startsWith, _ => none

end Operator

end ExtentPlanner
