import ExtentPlanner.Condition.Lookup
import ExtentPlanner.SortSpec

/-!
Visits: the leaves of a join tree. A visit is one extent of the query, the conditions that are
evaluated when nested loops reach it, and what has been found out about how to read it.

Of the access paths found, a hinted index comes first, then an index that delivers a wanted order,
then a lookup of a single object, then the index that bounds a scan best; the last resort is a
scan of the whole extent. `Visit.cost` charges a fixed cost for the path that will be taken.
-/
namespace ExtentPlanner

/-- One extent of a query, as nested loops visit it. -/
structure Visit where
  extent : Nat
  /-- The declared class of the extent. -/
  typeName : String
  /-- Conditions that are still to be evaluated at this visit. -/
  conditions : List Condition
  /-- The condition that a lookup has taken the place of. -/
  replaced? : Option Condition
  /-- The operand that refers to the one object to be read. -/
  reference? : Option Operand
  /-- The identity of the one object to be read. -/
  identity? : Option (IdentityKind × Operand)
  hintedIndex? : Option Index
  /-- The index that delivers rows in an order wanted further up. -/
  orderIndex? : Option IndexUse
  /-- The index that the conditions bound best. -/
  bestIndex? : Option Index
  /-- The index for scanning the whole extent. -/
  scanIndex? : Option Index
  /-- False once a type assertion is known never to hold. -/
  satisfiable : Bool
  /-- Whether this is the last visit of the nested loops. -/
  innermost : Bool
  deriving DecidableEq

/-! ## Costs of access paths -/

def referenceLookupCost : Float := 1

def objectNumberLookupCost : Float := 1

def objectIdLookupCost : Float := 2

def indexScanCost : Float := 2

def extentScanCost : Float := 100

namespace Visit

/-- A visit about which nothing is known yet. -/
def unplanned (extent : Nat) (typeName : String) : Visit where
  extent := extent
  typeName := typeName
  conditions := []
  replaced? := none
  reference? := none
  identity? := none
  hintedIndex? := none
  orderIndex? := none
  bestIndex? := none
  scanIndex? := none
  satisfiable := true
  innermost := false

/-- The same extent before planning. -/
def fresh (visit : Visit) : Visit := unplanned visit.extent visit.typeName

def addConditions (visit : Visit) (conditions : List Condition) : Visit :=
  { visit with conditions := visit.conditions ++ conditions }

/-- Hints an index, unless one is hinted already. -/
def hint (visit : Visit) (index : Index) : Visit :=
  { visit with hintedIndex? := visit.hintedIndex?.or (some index) }

def setOrderIndex (visit : Visit) (orderIndex? : Option IndexUse) : Visit :=
  { visit with orderIndex? }

def setInnermost (visit : Visit) (innermost : Bool) : Visit := { visit with innermost }

/-- The cost of the access path that the visit will take. -/
def cost (visit : Visit) : Float :=
  if visit.hintedIndex?.isSome || visit.orderIndex?.isSome then indexScanCost
  else if visit.reference?.isSome then referenceLookupCost
  else
    match visit.identity? with
    | some (.number, _) => objectNumberLookupCost
    | some (.id, _) => objectIdLookupCost
    | none => if visit.bestIndex?.isSome then indexScanCost else extentScanCost

end Visit

end ExtentPlanner
