import ExtentPlanner.Candidate.Distribution
import ExtentPlanner.Candidate.OrderedScans
import ExtentPlanner.JoinTree.Orders
import ExtentPlanner.JoinTree.Plan
import ExtentPlanner.Settings

/-!
Planning a query: every admissible join order is planned as a candidate of its own, and the
cheapest candidate becomes the execution plan. Of equally cheap candidates the first in the order
of the enumeration wins.

The query's own order is the only candidate if a hint fixes it or if there are more join orders
than the settings allow. Otherwise the orders that keep the order hint are compared, or all of
them if none keeps it; in that case the hint is ignored.
-/
namespace ExtentPlanner

/-- A query as bound against a catalog. -/
structure Query where
  tree : JoinTree
  conditions : ConjunctTable
  hints : Hints
  fetch : Fetch
  /-- The query as written, kept for planning it again. -/
  text : String

/-- What the planner works with beside the query. -/
structure Planner where
  catalog : Catalog
  settings : Settings
  generator? : Option FilterGenerator

namespace Planner

/-- The join trees to be planned for a query. -/
def joinTrees (planner : Planner) (query : Query) : Planned (List JoinTree) :=
  if query.hints.isFixed then .ok [query.tree.unplanned]
  else if planner.settings.maxJoinOrders < query.tree.orderCount then .ok [query.tree.unplanned]
  else do
    let orders ← query.tree.joinOrders
    let allowed := orders.filter fun order => query.hints.allows order.visitOrder
    .ok (if allowed.isEmpty then orders else allowed)

/-- Plans one join tree: hints and conditions are handed out, access paths found, and sorts
avoided where the settings want it. -/
def planCandidate (planner : Planner) (query : Query) (tree : JoinTree) : Planned Candidate := do
  let (candidate, hinted) :=
    (Candidate.ofTree tree).distributeHints planner.catalog query.hints.indexHints
  hinted
  let (candidate, distributed) := candidate.distributeConditions query.conditions
  distributed
  let (candidate, evaluated) := candidate.evaluate planner.catalog
  evaluated
  if planner.settings.orderedScans then
    let (candidate, presorted) := candidate.presortInput planner.catalog
    let _ ← presorted
    let (candidate, eliminated) := candidate.replaceSort planner.catalog
    let _ ← eliminated
    .ok candidate.rememberCost
  else .ok candidate.rememberCost

/-- The cheaper of the best candidate so far and a new one; of two equally cheap the earlier. -/
def cheaper (best? : Option Candidate) (candidate : Candidate) : Candidate :=
  match best? with
  | none => candidate
  | some best => if candidate.currentCost < best.currentCost then candidate else best

/-- Plans join trees from left to right and keeps the cheapest candidate. A tree that cannot be
planned makes the whole search fail. -/
def cheapestFrom (planner : Planner) (query : Query) (best? : Option Candidate) :
    List JoinTree → Planned (Option Candidate)
  | [] => .ok best?
  | tree :: rest => do
    let candidate ← planner.planCandidate query tree
    planner.cheapestFrom query (some (cheaper best? candidate)) rest

/-- The cheapest candidate of a query, with its last visit marked and its cost known. -/
def choose (planner : Planner) (query : Query) : Planned Candidate := do
  query.hints.validate (← query.tree.extentSet)
  let trees ← planner.joinTrees query
  match ← planner.cheapestFrom query none trees with
  | none => .error (.internal .noCandidate)
  | some best => do .ok (← best.markLastVisit).rememberCost

/-- The generator, if the settings allow generated code. -/
def allowedGenerator? (planner : Planner) : Option FilterGenerator :=
  if planner.settings.generatedFilters then planner.generator? else none

/-- A plan that has to be made again when pattern parameters are known says so at its root. -/
def announceReplan (query : Query) (root : PlanNode) : PlanNode :=
  let parameters := query.conditions.patternVariables
  if parameters.isEmpty then root else .replan 0 .none parameters query.text root

/-- The chosen candidate of a query as numbered enumerators. -/
def planChosen (planner : Planner) (query : Query) (candidate : Candidate) : Planned Plan := do
  let root ← candidate.top.plan planner.allowedGenerator? query.fetch
  .ok ⟨(announceReplan query root).numbered, candidate.currentCost⟩

/-- The execution plan of a query: the plan of its cheapest candidate. -/
def plan (planner : Planner) (query : Query) : Planned Plan := do
  planner.planChosen query (← planner.choose query)

end Planner

end ExtentPlanner
