import ExtentPlanner.Plan
import ExtentPlanner.Visit.Evaluation

/-!
Join trees: the joins of a query as nested loops, with sorts and aggregations above them. Read
from left to right, the leaves are the order in which the loops visit the extents.

A right outer join is a left outer join with its sides exchanged, so a tree has only two kinds of
join. The inner side of a left outer join may be filled with nulls; `nullSupplied` lists those
extents, because a null test on them must wait until after the join.
-/
namespace ExtentPlanner

/-- The kinds of join that nested loops run. -/
inductive JoinKind where
  | inner
  | leftOuter
  deriving DecidableEq

namespace JoinKind

def type : JoinKind → JoinType
  | inner => .inner
  | leftOuter => .leftOuter

end JoinKind

/-- Joins as nested loops, and what happens to their rows further up. -/
inductive JoinTree where
  | visit (visit : Visit)
  /-- The conditions of `post` are evaluated on joined rows. -/
  | join (kind : JoinKind) (left right : JoinTree) (post : List Condition)
  | sort (spec : SortSpec) (input : JoinTree)
  /-- Presorted input arrives in the order of the grouping. -/
  | aggregate (grouping : Grouping) (presorted : Bool) (input : JoinTree)
  deriving DecidableEq

namespace JoinTree

instance : Inhabited JoinTree := ⟨visit (.unplanned 0 "")⟩

/-- The join of two trees as a query asks for it. -/
def joined : JoinType → JoinTree → JoinTree → JoinTree
  | .inner, left, right => join .inner left right []
  | .leftOuter, left, right => join .leftOuter left right []
  | .rightOuter, left, right => join .leftOuter right left []

/-! ## Extents -/

/-- The visits in the order of the nested loops. -/
def visits : JoinTree → List Visit
  | visit leaf => [leaf]
  | join _ left right _ => left.visits ++ right.visits
  | sort _ input | aggregate _ _ input => input.visits

/-- The extents in the order of the nested loops. -/
def visitOrder : JoinTree → List Nat
  | visit leaf => [leaf.extent]
  | join _ left right _ => left.visitOrder ++ right.visitOrder
  | sort _ input | aggregate _ _ input => input.visitOrder

def extentSet (tree : JoinTree) : Planned ExtentSet := ExtentSet.ofList tree.visitOrder

/-- The extents that some left outer join in the tree may fill with nulls. -/
def nullSupplied : JoinTree → Planned ExtentSet
  | visit _ => .ok .empty
  | join kind left right _ => do
    let inside := (← left.nullSupplied).union (← right.nullSupplied)
    match kind with
    | .inner => .ok inside
    | .leftOuter => .ok (inside.union (← right.extentSet))
  | sort _ input | aggregate _ _ input => input.nullSupplied

/-- The first visit of an extent. -/
def visit? (extent : Nat) : JoinTree → Option Visit
  | visit leaf => if leaf.extent = extent then some leaf else none
  | join _ left right _ => (left.visit? extent).or (right.visit? extent)
  | sort _ input | aggregate _ _ input => input.visit? extent

/-- Changes the first visit of an extent; nothing if there is none. -/
def modifyVisit? (extent : Nat) (change : Visit → Visit) : JoinTree → Option JoinTree
  | visit leaf => if leaf.extent = extent then some (visit (change leaf)) else none
  | join kind left right post =>
    match left.modifyVisit? extent change with
    | some changed => some (join kind changed right post)
    | none => (right.modifyVisit? extent change).map (join kind left · post)
  | sort spec input => (input.modifyVisit? extent change).map (sort spec)
  | aggregate grouping presorted input =>
    (input.modifyVisit? extent change).map (aggregate grouping presorted)

/-- Changes every visit, given its position in the order of the nested loops after `before`
others. -/
def mapVisitsFrom (change : Nat → Visit → Visit) (before : Nat) : JoinTree → JoinTree
  | visit leaf => visit (change before leaf)
  | join kind left right post =>
    join kind (left.mapVisitsFrom change before)
      (right.mapVisitsFrom change (before + left.visitOrder.length)) post
  | sort spec input => sort spec (input.mapVisitsFrom change before)
  | aggregate grouping presorted input =>
    aggregate grouping presorted (input.mapVisitsFrom change before)

/-- Changes every visit, given its position in the order of the nested loops. -/
def mapVisits (change : Nat → Visit → Visit) (tree : JoinTree) : JoinTree :=
  tree.mapVisitsFrom change 0

/-- Evaluates the visits in order. At the first failure the visits before it stay evaluated. -/
def evaluateVisits (catalog : Catalog) : JoinTree → JoinTree × Planned Unit
  | visit leaf =>
    match leaf.evaluate catalog with
    | .ok evaluated => (visit evaluated, .ok ())
    | .error failure => (visit leaf, .error failure)
  | join kind left right post =>
    match left.evaluateVisits catalog with
    | (left, .ok ()) =>
      let (right, outcome) := right.evaluateVisits catalog
      (join kind left right post, outcome)
    | (left, .error failure) => (join kind left right post, .error failure)
  | sort spec input =>
    let (input, outcome) := input.evaluateVisits catalog
    (sort spec input, outcome)
  | aggregate grouping presorted input =>
    let (input, outcome) := input.evaluateVisits catalog
    (aggregate grouping presorted input, outcome)

/-! ## Cost -/

/-- The cost of sorting `input` rows. Fewer than two rows cost one step each. -/
def sortCost (input : Float) : Float := input * (if input < 2 then 2 else input).log2

/-- How many rows nested loops look at. A join runs its inner side once for each row of its outer
side; an aggregation of unsorted input sorts it first. -/
def cost : JoinTree → Float
  | visit leaf => leaf.cost
  | join _ left right _ => left.cost * right.cost
  | sort _ input => sortCost input.cost
  | aggregate _ presorted input => if presorted then input.cost else sortCost input.cost

/-! ## Aggregations near the top -/

/-- The grouping of the aggregation at the top, or directly under a sort at the top. -/
def topGrouping? : JoinTree → Option Grouping
  | aggregate grouping _ _ => some grouping
  | sort _ (aggregate grouping _ _) => some grouping
  | _ => none

/-- Says whether the input of that aggregation is presorted. -/
def setPresorted (presorted : Bool) : JoinTree → JoinTree
  | aggregate grouping _ input => aggregate grouping presorted input
  | sort spec (aggregate grouping _ input) => sort spec (aggregate grouping presorted input)
  | tree => tree

end JoinTree

end ExtentPlanner
