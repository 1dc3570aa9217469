import ExtentPlanner.Plan
import ExtentPlanner.Visit
import ExtentPlanner.Visit.Coverage

/-!
The access path that a visit takes in a plan. Conditions that bound an index scan become range
points on its leading columns; all others stay in the filter. An index of an ancestor class also
has objects of other classes, so a scan of it filters by the declared class.
-/
namespace ExtentPlanner

/-- Generates filter code for an extent of a class. It gives the key under which the code is
stored, or nothing if it cannot express the filter. -/
abbrev FilterGenerator : Type :=
  (extent : Nat) → (typeName : String) → (filter : Condition) → Option String

/-- Parts conditions into the bounds they put on a column and the others, both in order. -/
def splitBounds (extent : Nat) (column : String) :
    List Condition → List RangePoint × List Condition
  | [] => ([], [])
  | condition :: rest =>
    let (points, others) := splitBounds extent column rest
    match (condition.columnComparison? extent).filter (·.column == column) with
    | some comparison => (⟨comparison.operator, comparison.value⟩ :: points, others)
    | none => (points, condition :: others)

/-- The ranges of an index's columns, of which the first `bounded` take the bounds that the
conditions put on them, and the conditions that are left. -/
def columnRanges (extent : Nat) : (bounded : Nat) → List IndexColumn → List Condition →
    List ColumnRange × List Condition
  | _, [], conditions => ([], conditions)
  | 0, column :: rest, conditions =>
    let (ranges, left) := columnRanges extent 0 rest conditions
    (⟨column.path, column.columnType, []⟩ :: ranges, left)
  | bounded + 1, column :: rest, conditions =>
    let (points, others) := splitBounds extent column.path conditions
    let (ranges, left) := columnRanges extent bounded rest others
    (⟨column.path, column.columnType, points⟩ :: ranges, left)

namespace Visit

/-- The remaining conditions and the one that an unused lookup has taken. -/
def allConditions (visit : Visit) : List Condition := visit.conditions ++ visit.replaced?.toList

/-- The conditions as a filter over rows of an index, guarded by the declared class if the index
has rows of other classes. -/
def guardedFilter (visit : Visit) (index : Index) (conditions : List Condition) : Condition :=
  .conjunction (conditions ++
    if index.typeName = visit.typeName then []
    else [.isType (.object visit.extent) (.named visit.typeName)])

/-- A scan of the index, bounded as far as the conditions allow. -/
def indexScan (visit : Visit) (index : Index) (direction : Direction)
    (conditions : List Condition) : Access :=
  let comparisons := conditions.filterMap (·.columnComparison? visit.extent)
  let (ranges, left) :=
    columnRanges visit.extent (index.coverage comparisons).columns index.columns conditions
  .indexScan visit.extent index direction ranges (visit.guardedFilter index left) visit.innermost

/-- A scan of the whole extent. If there are conditions and a generator that can express them, the
scan runs generated code. -/
def extentScan (visit : Visit) (index : Index) (generator? : Option FilterGenerator) : Access :=
  let filter := visit.guardedFilter index visit.conditions
  let code? :=
    if visit.conditions.isEmpty then none
    else generator?.bind fun generate => generate visit.extent visit.typeName filter
  match code? with
  | some code => .fullScan visit.extent index filter code visit.innermost
  | none => visit.indexScan index .ascending visit.conditions

/-- The access path that the visit takes. -/
def access (visit : Visit) (generator? : Option FilterGenerator) : Planned Access :=
  match visit.hintedIndex?, visit.orderIndex?, visit.reference?, visit.identity?,
    visit.bestIndex?, visit.scanIndex? with
  | some index, _, _, _, _, _ => .ok (visit.indexScan index .ascending visit.allConditions)
  | none, some use, _, _, _, _ => .ok (visit.indexScan use.index use.direction visit.allConditions)
  | none, none, some reference, _, _, _ =>
    .ok (.reference visit.extent reference (.conjunction visit.conditions))
  | none, none, none, some (kind, key), _, _ =>
    .ok (.identity visit.extent kind key (.conjunction visit.conditions))
  | none, none, none, none, some index, _ =>
    .ok (visit.indexScan index .ascending visit.conditions)
  | none, none, none, none, none, some index => .ok (visit.extentScan index generator?)
  | none, none, none, none, none, none => .error (.internal (.noIndexForType visit.typeName))

end Visit

end ExtentPlanner
