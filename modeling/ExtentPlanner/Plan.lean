import ExtentPlanner.Condition
import ExtentPlanner.SetFunction
import ExtentPlanner.SortSpec

/-!
Execution plans: trees of enumerators that an executor can open. The leaves read extents, each by
one access path; joins, sorts and aggregations combine their inputs; a rewrite node at the root
announces that the plan has to be made again when pattern parameters are known.

Every node has a number and may page its rows. Numbers are handed out in the order of
construction, children before their parent. They are natural numbers; a counter of 32 bits hands out
the same ones to plans of fewer than 2^32 nodes (`PlanNode.Numbered.fits`).
-/
namespace ExtentPlanner

/-- The part of the rows that a node delivers. -/
structure Fetch where
  /-- How many rows. -/
  number? : Option Operand
  /-- How many rows to skip first. -/
  offset? : Option Operand
  /-- The key after which to start. -/
  key? : Option Operand
  deriving DecidableEq

namespace Fetch

/-- All rows. -/
def none : Fetch := ⟨.none, .none, .none⟩

def isNone (fetch : Fetch) : Bool :=
  fetch.number?.isNone && fetch.offset?.isNone && fetch.key?.isNone

end Fetch

/-- How a query joins two inputs. -/
inductive JoinType where
  | inner
  | leftOuter
  | rightOuter
  deriving DecidableEq

namespace JoinType

def written : JoinType → String
  | inner => "INNER"
  | leftOuter => "LEFT OUTER"
  | rightOuter => "RIGHT OUTER"

end JoinType

/-- One bound on an index column; its value is known when the scan opens. -/
structure RangePoint where
  operator : Operator
  value : Operand
  deriving DecidableEq

/-- The bounds on one index column; without points the whole column is scanned. -/
structure ColumnRange where
  column : String
  columnType : ColumnType
  points : List RangePoint
  deriving DecidableEq

namespace ColumnRange

def isFull (range : ColumnRange) : Bool := range.points.isEmpty

end ColumnRange

/-- The access path by which a plan reads one extent. -/
inductive Access where
  /-- Rows between the bounds, in the order of the index. -/
  | indexScan (extent : Nat) (index : Index) (direction : Direction) (ranges : List ColumnRange)
      (filter : Condition) (innermost : Bool)
  /-- All rows of the index, filtered by generated code that is stored under `code`. -/
  | fullScan (extent : Nat) (index : Index) (filter : Condition) (code : String) (innermost : Bool)
  /-- The one object that an operand refers to. -/
  | reference (extent : Nat) (reference : Operand) (filter : Condition)
  /-- The one object with this identity. -/
  | identity (extent : Nat) (kind : IdentityKind) (key : Operand) (filter : Condition)
  deriving DecidableEq

namespace Access

def extent : Access → Nat
  | indexScan extent .. | fullScan extent .. | reference extent .. | identity extent .. => extent

def filter : Access → Condition
  | indexScan _ _ _ _ filter _ | fullScan _ _ filter _ _ | reference _ _ filter
  | identity _ _ _ filter => filter

end Access

/-- Grouping of rows and the functions evaluated over each group. -/
structure Grouping where
  /-- The extent number of the grouped rows. -/
  extent : Nat
  groupBy : SortSpec
  functions : List SetFunction
  having : Condition
  deriving DecidableEq

/-- An enumerator with its inputs. -/
inductive PlanNode where
  | access (id : Nat) (fetch : Fetch) (access : Access)
  | join (id : Nat) (fetch : Fetch) (type : JoinType) (left right : PlanNode) (post : Condition)
  | sort (id : Nat) (fetch : Fetch) (spec : SortSpec) (input : PlanNode)
  /-- Presorted input arrives in the order of the grouping. -/
  | aggregate (id : Nat) (fetch : Fetch) (grouping : Grouping) (presorted : Bool) (input : PlanNode)
  /-- Plans the query again with the values of its pattern parameters. -/
  | replan (id : Nat) (fetch : Fetch) (parameters : List Nat) (query : String)
      (input : PlanNode)
  deriving DecidableEq

namespace PlanNode

/-- The number of the node, which fits 32 bits in a plan of fewer than 2^32 nodes. -/
def id : PlanNode → Nat
  | access id .. | join id .. | sort id .. | aggregate id .. | replan id .. => id

def fetch : PlanNode → Fetch
  | access _ fetch _ | join _ fetch .. | sort _ fetch .. | aggregate _ fetch ..
  | replan _ fetch .. => fetch

def children : PlanNode → List PlanNode
  | access .. => []
  | join _ _ _ left right _ => [left, right]
  | sort _ _ _ input | aggregate _ _ _ _ input | replan _ _ _ _ input => [input]

/-- The node and everything below it, each node before its children. -/
def nodes : PlanNode → List PlanNode
  | access id fetch path => [access id fetch path]
  | join id fetch type left right post =>
    join id fetch type left right post :: (left.nodes ++ right.nodes)
  | sort id fetch spec input => sort id fetch spec input :: input.nodes
  | aggregate id fetch grouping presorted input =>
    aggregate id fetch grouping presorted input :: input.nodes
  | replan id fetch parameters query input =>
    replan id fetch parameters query input :: input.nodes

/-- The access paths from left to right. -/
def accesses : PlanNode → List Access
  | access _ _ path => [path]
  | join _ _ _ left right _ => left.accesses ++ right.accesses
  | sort _ _ _ input | aggregate _ _ _ _ input | replan _ _ _ _ input => input.accesses

end PlanNode

/-- A plan for a whole query. -/
structure Plan where
  root : PlanNode
  cost : Float

namespace Plan

def nodeCount (plan : Plan) : Nat := plan.root.nodes.length

end Plan

end ExtentPlanner
