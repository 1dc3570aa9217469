import ExtentPlanner.Error

/-!
Settings of the planner, and the rule that every setting in use allows at least one join order.
-/
namespace ExtentPlanner

/-- How far the planner goes in its search, and which techniques it may use. -/
structure Settings where
  /-- The most join orders that are compared. A query with more is planned in its own order. -/
  maxJoinOrders : Nat
  /-- Whether scans of whole extents may run generated filter code. -/
  generatedFilters : Bool
  /-- Whether sorting may be replaced by index scans. -/
  orderedScans : Bool
  deriving DecidableEq

namespace Settings

/-- The number of orders of eight extents, and both techniques switched on. -/
def standard : Settings := ⟨40320, true, true⟩

instance : Inhabited Settings := ⟨standard⟩

/-- Settings that allow no join order are refused. -/
def validate (settings : Settings) : Planned Settings :=
  if settings.maxJoinOrders = 0 then .error (.settings .noJoinOrders) else .ok settings

/-- What diagnostics are written at a level: those of the planner only. -/
def logDirective (level : String) : String := "objql=" ++ level

end Settings

end ExtentPlanner
