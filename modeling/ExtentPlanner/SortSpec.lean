import ExtentPlanner.Catalog
import ExtentPlanner.Operand

/-!
Orders of rows that a query asks for, in ORDER BY or GROUP BY. An order can be served by index
scans when each item is a plain column and the items of one extent stand together: then nested
loops that visit the extents in the order of the items, each through an index on its own items,
deliver rows already sorted.
-/
namespace ExtentPlanner

/-- An operand to sort by, and which way. -/
structure SortItem where
  operand : Operand
  direction : Direction
  deriving DecidableEq

namespace SortItem

def written (item : SortItem) : String := item.operand.written ++ " " ++ item.direction.written

/-- The extent of an item that is a plain column. -/
def columnExtent? (item : SortItem) : Option Nat :=
  item.operand.extent?.filter fun extent => (item.operand.column? extent).isSome

/-- Column and direction of an item that is a plain column of `extent`. -/
def keyPart? (extent : Nat) (item : SortItem) : Option (String × Direction) :=
  (item.operand.column? extent).map fun column => (column, item.direction)

end SortItem

/-- Sort items, most significant first. -/
structure SortSpec where
  items : List SortItem
  deriving DecidableEq

namespace SortSpec

def empty : SortSpec := ⟨[]⟩

instance : Inhabited SortSpec := ⟨empty⟩

def isEmpty (spec : SortSpec) : Bool := spec.items.isEmpty

def written (spec : SortSpec) : String := Listing.commaSeparated (spec.items.map SortItem.written)

/-- Lists the extents of a run of items behind those visited before, or fails on an item that is
no plain column or that returns to an extent after another one. -/
def visitOrderFrom (visited : List Nat) : List SortItem → Option (List Nat)
  | [] => some visited
  | item :: rest =>
    match item.columnExtent? with
    | none => none
    | some extent =>
      if visited.getLast? = some extent then visitOrderFrom visited rest
      else if visited.contains extent then none
      else visitOrderFrom (visited ++ [extent]) rest

/-- The extents in the order in which nested loops must visit them to deliver sorted rows; nothing
if no order of index scans can. -/
def requiredVisitOrder? (spec : SortSpec) : Option (List Nat) := visitOrderFrom [] spec.items

/-- Columns and directions of the items on `extent`. -/
def sortKey (spec : SortSpec) (extent : Nat) : SortKey := spec.items.filterMap (·.keyPart? extent)

/-- The index of the class that delivers the items on `extent` in order. -/
def index? (spec : SortSpec) (catalog : Catalog) (extent : Nat) (typeName : String) :
    Option IndexUse :=
  catalog.orderIndex? typeName (spec.sortKey extent)

end SortSpec

end ExtentPlanner
