import ExtentPlanner.Condition

/-!
Conditions that give direct access to an extent. An equality with the extent's object or identity
finds at most one object; a range comparison on a column bounds an index scan; a type assertion
narrows the classes scanned.

In each case the other side must not read the same extent, because it is evaluated before the
extent is visited.
-/
namespace ExtentPlanner

/-- A comparison with the column on the left: `column operator value`. -/
structure ColumnComparison where
  column : String
  operator : Operator
  value : Operand
  deriving DecidableEq

namespace Condition

/-- The operand whose object the extent's object must be, for a condition `extent = operand`. -/
def referenceLookup? (extent : Nat) : Condition → Option Operand
  | compare .equal left right =>
    let other? :=
      if left = .object extent then some right
      else if right = .object extent then some left
      else none
    other?.filter fun other => other.mayBeObject && !other.reads extent
  | _ => none

/-- The identity of `extent` that an operand denotes. -/
def identityOf? (extent : Nat) : Operand → Option IdentityKind
  | .objectNumber owner => if owner = extent then some .number else none
  | .objectId owner => if owner = extent then some .id else none
  | _ => none

/-- The identity that is fixed by the condition, and the operand it must equal. -/
def identityLookup? (extent : Nat) : Condition → Option (IdentityKind × Operand)
  | compare .equal left right =>
    let candidate? :=
      match identityOf? extent left, identityOf? extent right with
      | some kind, _ => some (kind, right)
      | none, some kind => some (kind, left)
      | none, none => none
    candidate?.filter fun (_, other) => !other.reads extent && !other.isNull
  | _ => none

/-- The comparison as a bound on `column` of `extent`, if `column` is on that side. -/
def columnBound? (extent : Nat) (side : Operand) (operator? : Option Operator) (other : Operand) :
    Option ColumnComparison :=
  match side.column? extent, operator? with
  | some column, some operator =>
    if other.reads extent then none else some ⟨column, operator, other⟩
  | _, _ => none

/-- The range comparison on a column of `extent`, mirrored if the column is on the right. -/
def columnComparison? (extent : Nat) : Condition → Option ColumnComparison
  | compare operator left right =>
    if operator.isRange then
      (columnBound? extent left (some operator) right).or
        (columnBound? extent right operator.reverse? left)
    else none
  | _ => none

/-- The type that the condition asserts of the extent's object. -/
def assertedTarget? (extent : Nat) : Condition → Option TypeTarget
  | isType object target => if object = .object extent then some target else none
  | _ => none

/-- The same for assertions that name the type. -/
def assertedType? (extent : Nat) (condition : Condition) : Option String :=
  match condition.assertedTarget? extent with
  | some (.named typeName) => some typeName
  | _ => none

end Condition

end ExtentPlanner
