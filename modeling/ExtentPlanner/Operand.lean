import ExtentPlanner.ExtentSet
import ExtentPlanner.Scalar

/-!
Operands of conditions, sort items and set functions. An operand reads at most one extent, and
only a path of a single member can be served by an index column.
-/
namespace ExtentPlanner

/-- Something a condition compares. -/
inductive Operand where
  | literal (value : Scalar)
  /-- A query parameter, by position. -/
  | parameter (index : Nat)
  /-- A member path on an extent's object. -/
  | path (extent : Nat) (members : List String)
  /-- The extent's object itself. -/
  | object (extent : Nat)
  /-- The numeric identity of the extent's object. -/
  | objectNumber (extent : Nat)
  /-- The text form of that identity. -/
  | objectId (extent : Nat)
  deriving DecidableEq

namespace Operand

def null : Operand := literal .null

def text (value : String) : Operand := literal (.text value)

def isNull : Operand → Bool
  | literal value => value.isNull
  | _ => false

/-- The extent that the operand reads, if any. -/
def extent? : Operand → Option Nat
  | literal _ | parameter _ => none
  | path extent _ | object extent | objectNumber extent | objectId extent => some extent

/-- The extents that the operand reads, as a list of at most one. -/
def extents (operand : Operand) : List Nat := operand.extent?.toList

def reads (operand : Operand) (extent : Nat) : Bool := operand.extent? == some extent

/-- The column of `extent` that the operand is, if it is a path of a single member. -/
def column? (extent : Nat) : Operand → Option String
  | path owner [member] => if owner = extent then some member else none
  | _ => none

theorem column?_eq_some {extent : Nat} {operand : Operand} {member : String} :
    operand.column? extent = some member ↔ operand = path extent [member] := by
  constructor
  · intro column
    unfold column? at column
    split at column
    · split at column
      · rename_i same
        cases column
        rw [same]
      · cases column
    · cases column
  · rintro rfl
    simp [column?]

theorem reads_of_column? {extent : Nat} {operand : Operand} {member : String}
    (column : operand.column? extent = some member) : operand.reads extent = true := by
  obtain rfl := column?_eq_some.mp column
  simp [reads, extent?]

/-- Whether the operand can denote an object reference. -/
def mayBeObject : Operand → Bool
  | path .. | parameter _ | object _ | literal (.object _) => true
  | _ => false

def written : Operand → String
  | literal value => value.written
  | parameter index => "?" ++ toString index
  | path extent members => "e" ++ toString extent ++ "." ++ String.intercalate "." members
  | object extent => "e" ++ toString extent
  | objectNumber extent => "e" ++ toString extent ++ ".ObjectNo"
  | objectId extent => "e" ++ toString extent ++ ".ObjectId"

end Operand

/-- Which identity of an object a lookup matches. -/
inductive IdentityKind where
  | number
  | id
  deriving DecidableEq

namespace IdentityKind

def written : IdentityKind → String
  | number => "ObjectNo"
  | id => "ObjectId"

end IdentityKind

end ExtentPlanner
