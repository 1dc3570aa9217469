import ExtentPlanner.JoinTree

/-!
Join orders. An inner join may run either side first, an outer join only its left side, so a tree
with k inner joins has 2^k join orders. The trees listed by `joinOrders` are in the state before
planning: visits are fresh and no condition stands after a join.

Copies of sorts and aggregations below a join are refused, because such a subtree is bound to the
rows it was made for; at the top of a tree they stay where they are.
-/
namespace ExtentPlanner.JoinTree

/-- The tree in its own order, in the state before planning. -/
def unplanned : JoinTree → JoinTree
  | visit leaf => visit leaf.fresh
  | join kind left right _ => join kind left.unplanned right.unplanned []
  | sort spec input => sort spec input.unplanned
  | aggregate grouping _ input => aggregate grouping false input.unplanned

/-- A copy of a tree of joins: visits are fresh, conditions after joins are kept. -/
def copy? : JoinTree → Planned JoinTree
  | visit leaf => .ok (visit leaf.fresh)
  | join kind left right post => do .ok (join kind (← left.copy?) (← right.copy?) post)
  | sort .. => .error (.internal .sortNotCopied)
  | aggregate .. => .error (.internal .aggregationNotCopied)

/-- The joins of every left tree with every right tree, in the order of the left trees. -/
def joinPairs (kind : JoinKind) (lefts rights : List JoinTree) (exchanged : Bool) :
    Planned (List JoinTree) :=
  (lefts.flatMap fun left => rights.map fun right => (left, right)).mapM fun (left, right) => do
    let (outer, inner) := if exchanged then (right, left) else (left, right)
    .ok (join kind (← outer.copy?) (← inner.copy?) [])

/-- Every join order of the tree. At an inner join, the orders that keep its sides come before
those that exchange them; within both, the orders of the left side change last. -/
def joinOrders : JoinTree → Planned (List JoinTree)
  | visit leaf => .ok [visit leaf.fresh]
  | join kind left right _ => do
    let lefts ← left.joinOrders
    let rights ← right.joinOrders
    let straight ← joinPairs kind lefts rights false
    match kind with
    | .inner => .ok (straight ++ (← joinPairs kind lefts rights true))
    | .leftOuter => .ok straight
  | sort spec input => do .ok ((← input.joinOrders).map (sort spec))
  | aggregate grouping _ input => do .ok ((← input.joinOrders).map (aggregate grouping false))

/-- The greatest count of join orders that is told apart from greater ones. -/
def maxCount : Nat := UInt64.size - 1

/-- The number of join orders, cut off at `maxCount`. -/
def orderCount : JoinTree → Nat
  | visit _ => 1
  | join kind left right _ =>
    let straight := min (left.orderCount * right.orderCount) maxCount
    match kind with
    | .inner => min (2 * straight) maxCount
    | .leftOuter => straight
  | sort _ input | aggregate _ _ input => input.orderCount

end ExtentPlanner.JoinTree
