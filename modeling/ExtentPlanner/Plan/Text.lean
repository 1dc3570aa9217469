import ExtentPlanner.Plan

/-!
Plans as text: one line for each node, indented below its parent. A line has the node's number,
what the node does and with which index, bounds and conditions, and the part of the rows it
delivers. Conditions that are always true are left out, except for a scan with generated code.
-/
namespace ExtentPlanner

/-- A part of a line, preceded by a blank and a word. -/
private def labelled (word text : String) : String := " " ++ word ++ " " ++ text

/-- A condition after its word, unless it is always true. -/
private def labelledUnlessTrue (word : String) (condition : Condition) : String :=
  if condition.isTrueLiteral then "" else labelled word condition.written

private def flag (word : String) (isSet : Bool) : String := if isSet then " " ++ word else ""

namespace Fetch

def written (fetch : Fetch) : String :=
  let parts :=
    [("FETCH ", fetch.number?), ("OFFSET ", fetch.offset?), ("OFFSETKEY ", fetch.key?)].filterMap
      fun (word, operand?) => operand?.map fun operand => word ++ operand.written
  String.intercalate " " parts

end Fetch

namespace ColumnRange

def bounds (range : ColumnRange) : List String :=
  range.points.map fun point =>
    range.column ++ " " ++ point.operator.written ++ " " ++ point.value.written

end ColumnRange

namespace Access

def label : Access → String
  | indexScan extent index direction ranges filter innermost =>
    let bounds := ranges.flatMap ColumnRange.bounds
    "IndexScan e" ++ toString extent ++ " " ++ index.name ++ " " ++ direction.written
      ++ (if bounds.isEmpty then "" else " [" ++ Listing.commaSeparated bounds ++ "]")
      ++ labelledUnlessTrue "filter" filter ++ flag "innermost" innermost
  | fullScan extent index filter code _ =>
    "FullTableScan e" ++ toString extent ++ " " ++ index.name ++ labelled "filter" filter.written
      ++ labelled "code" code
  | reference extent operand filter =>
    "ReferenceLookup e" ++ toString extent ++ " = " ++ operand.written
      ++ labelledUnlessTrue "filter" filter
  | identity extent kind key filter =>
    "IdentityLookup e" ++ toString extent ++ "." ++ kind.written ++ " = " ++ key.written
      ++ labelledUnlessTrue "filter" filter

end Access

namespace Grouping

def label (grouping : Grouping) (presorted : Bool) : String :=
  "Aggregation e" ++ toString grouping.extent ++ " ["
    ++ Listing.commaSeparated (grouping.functions.map SetFunction.written) ++ "]"
    ++ (if grouping.groupBy.isEmpty then "" else labelled "group by" grouping.groupBy.written)
    ++ labelledUnlessTrue "having" grouping.having ++ flag "presorted" presorted

end Grouping

namespace PlanNode

def label : PlanNode → String
  | access _ _ path => path.label
  | join _ _ type _ _ post => "Join " ++ type.written ++ labelledUnlessTrue "post" post
  | sort _ _ spec _ => "Sort " ++ spec.written
  | aggregate _ _ grouping presorted _ => grouping.label presorted
  | replan _ _ parameters _ _ => "LikeRewrite " ++ Listing.bracketed parameters

/-- The node's own line at a depth below the root. -/
def line (node : PlanNode) (depth : Nat) : String :=
  "".pushn ' ' (2 * depth) ++ "#" ++ toString node.id ++ " " ++ node.label
    ++ (if node.fetch.isNone then "" else " " ++ node.fetch.written) ++ "\n"

/-- The node's line and those of everything below it. -/
def written (depth : Nat) : PlanNode → String
  | access id fetch path => (access id fetch path).line depth
  | join id fetch type left right post =>
    (join id fetch type left right post).line depth ++ left.written (depth + 1)
      ++ right.written (depth + 1)
  | sort id fetch spec input => (sort id fetch spec input).line depth ++ input.written (depth + 1)
  | aggregate id fetch grouping presorted input =>
    (aggregate id fetch grouping presorted input).line depth ++ input.written (depth + 1)
  | replan id fetch parameters query input =>
    (replan id fetch parameters query input).line depth ++ input.written (depth + 1)

end PlanNode

namespace Plan

/-- The cost and the tree of a plan. -/
def written (plan : Plan) : String :=
  "QUERY PLAN (cost " ++ (Binary64.ofFloat plan.cost).written ++ ")\n" ++ plan.root.written 0

end Plan

end ExtentPlanner
