import ExtentPlanner.JoinTree

/-!
Conditions after joins. A null test on an extent that an outer join may fill with nulls has to see
the joined row. It goes to the lowest join that has all extents the condition reads and that
stands at or above an outer join filling one of the tested extents.
-/
namespace ExtentPlanner.JoinTree

/-- Where a condition after a join may go. -/
structure PostFilter where
  condition : Condition
  /-- The extents that the condition reads. -/
  references : ExtentSet
  /-- The extents that it tests for null. -/
  tested : ExtentSet

namespace PostFilter

/-- Whether a join with these extents can evaluate the condition, of which it may fill
`nullSupplied` with nulls. -/
def fits (filter : PostFilter) (extents nullSupplied : ExtentSet) : Bool :=
  filter.references.isSubset extents && nullSupplied.intersects filter.tested

end PostFilter

/-- Whether the condition can be evaluated at the top of this tree. -/
def admits (tree : JoinTree) (filter : PostFilter) : Planned Bool := do
  let extents ← tree.extentSet
  if filter.references.isSubset extents then
    .ok (filter.fits extents (← tree.nullSupplied))
  else .ok false

/-- Attaches the condition to the lowest join that can evaluate it, the left side of a join tried
before its right side. Gives nothing if no join can. -/
def attachLowest? (filter : PostFilter) : JoinTree → Planned (Option JoinTree)
  | visit _ => .ok none
  | join kind left right post => do
    let admitted ← (join kind left right post).admits filter
    match ← left.attachLowest? filter with
    | some placed => .ok (some (join kind placed right post))
    | none =>
      match ← right.attachLowest? filter with
      | some placed => .ok (some (join kind left placed post))
      | none =>
        .ok (if admitted then some (join kind left right (post ++ [filter.condition])) else none)
  | sort spec input => do .ok ((← input.attachLowest? filter).map (sort spec))
  | aggregate grouping presorted input => do
    .ok ((← input.attachLowest? filter).map (aggregate grouping presorted))

end ExtentPlanner.JoinTree
