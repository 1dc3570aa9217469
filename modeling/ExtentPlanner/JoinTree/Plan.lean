import ExtentPlanner.JoinTree
import ExtentPlanner.Visit.Access

/-!
The plan of a join tree. Each node of the tree becomes the enumerator of the same kind; only the
top one pages its rows. Numbers are given to the finished plan, from the leaves up.
-/
namespace ExtentPlanner

namespace PlanNode

/-- Numbers a plan from `next` on, left inputs before right ones and every node after its inputs.
Gives the plan and the next free number, which has no bound here. -/
def numberedFrom (next : Nat) : PlanNode → PlanNode × Nat
  | access _ fetch path => (access next fetch path, next + 1)
  | join _ fetch type left right post =>
    let (left, next) := left.numberedFrom next
    let (right, next) := right.numberedFrom next
    (join next fetch type left right post, next + 1)
  | sort _ fetch spec input =>
    let (input, next) := input.numberedFrom next
    (sort next fetch spec input, next + 1)
  | aggregate _ fetch grouping presorted input =>
    let (input, next) := input.numberedFrom next
    (aggregate next fetch grouping presorted input, next + 1)
  | replan _ fetch parameters query input =>
    let (input, next) := input.numberedFrom next
    (replan next fetch parameters query input, next + 1)

/-- The plan with its nodes numbered from zero. -/
def numbered (node : PlanNode) : PlanNode := (node.numberedFrom 0).1

end PlanNode

namespace JoinTree

/-- The enumerators of a tree, not yet numbered. The first failure is that of the leftmost visit
that has no access path. -/
def plan (generator? : Option FilterGenerator) (fetch : Fetch) : JoinTree → Planned PlanNode
  | visit leaf => do .ok (.access 0 fetch (← leaf.access generator?))
  | join kind left right post => do
    let left ← left.plan generator? .none
    let right ← right.plan generator? .none
    .ok (.join 0 fetch kind.type left right (.conjunction post))
  | sort spec input => do .ok (.sort 0 fetch spec (← input.plan generator? .none))
  | aggregate grouping presorted input => do
    .ok (.aggregate 0 fetch grouping presorted (← input.plan generator? .none))

end JoinTree

end ExtentPlanner
