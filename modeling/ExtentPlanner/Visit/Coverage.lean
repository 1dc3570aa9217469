import ExtentPlanner.Catalog
import ExtentPlanner.Condition.Lookup

/-!
How well an index is bounded by comparisons. A scan can be bounded on a column only while every
column before it is fixed by an equality, so the columns are walked from the left up to the first
that no comparison bounds or that is not fixed.

A bounded column weighs twice as much as the next one, so that no number of later columns makes up
for an earlier one.
-/
namespace ExtentPlanner

/-- What a scan gains from comparisons. -/
structure Coverage where
  score : Nat
  /-- The number of leading columns that are bounded. -/
  columns : Nat
  deriving DecidableEq

namespace Coverage

def none : Coverage := ⟨0, 0⟩

/-- Adds a bounded column in front, which has `position` columns before it in the index. -/
def addColumn (coverage : Coverage) (position : Nat) : Coverage :=
  ⟨1 <<< (maxIndexColumns - 1 - position) + coverage.score, coverage.columns + 1⟩

end Coverage

/-- Walks the columns of an index that have `position` columns before them. -/
def coverageFrom (comparisons : List ColumnComparison) (position : Nat) :
    List IndexColumn → Coverage
  | [] => .none
  | column :: rest =>
    let bounds := comparisons.filter fun comparison => comparison.column == column.path
    if bounds.isEmpty || maxIndexColumns ≤ position then .none
    else if bounds.any fun comparison => comparison.operator == .equal then
      (coverageFrom comparisons (position + 1) rest).addColumn position
    else Coverage.none.addColumn position

namespace Index

def coverage (index : Index) (comparisons : List ColumnComparison) : Coverage :=
  coverageFrom comparisons 0 index.columns

end Index

/-- Keeps the index with the higher score, the earlier one of two that are equally good. -/
def betterIndex (comparisons : List ColumnComparison) (best : Nat × Option Index) (index : Index) :
    Nat × Option Index :=
  let score := (index.coverage comparisons).score
  if best.1 < score then (score, some index) else best

/-- The first index with the highest score, if any index is bounded at all. -/
def bestIndex? (comparisons : List ColumnComparison) (indexes : List Index) : Option Index :=
  (indexes.foldl (betterIndex comparisons) (0, none)).2

end ExtentPlanner
