import ExtentPlanner.ExtentSet

/-!
Hints of a query: the order in which to visit its extents, and the index to read an extent
through.

An order hint is kept by every visitation order that has the hinted extents as a subsequence. The
empty order hint asks for the order of the query itself.
-/
namespace ExtentPlanner

/-- Use this index for this extent. -/
structure IndexHint where
  extent : Nat
  index : String
  deriving DecidableEq

/-- One hint of a query. -/
inductive Hint where
  /-- Extents in the wanted relative order; none means that the query's own order is fixed. -/
  | joinOrder (extents : List Nat)
  | index (hint : IndexHint)
  deriving DecidableEq

/-- The hints of one query. -/
structure Hints where
  joinOrder? : Option (List Nat)
  /-- In the order of addition. -/
  indexHints : List IndexHint
  deriving DecidableEq

namespace Hints

def empty : Hints := ⟨none, []⟩

/-- The first order hint wins; index hints accumulate. -/
def add (hints : Hints) : Hint → Hints
  | .joinOrder extents => { hints with joinOrder? := hints.joinOrder?.or (some extents) }
  | .index hint => { hints with indexHints := hints.indexHints ++ [hint] }

def addAll (hints : Hints) (added : List Hint) : Hints := added.foldl add hints

/-- Whether only the query's own order is to be planned. -/
def isFixed (hints : Hints) : Bool := hints.joinOrder? == some []

def withoutJoinOrder (hints : Hints) : Hints := { hints with joinOrder? := none }

/-- Whether the wanted extents occur in the order, one after the other. -/
def occursIn : (wanted order : List Nat) → Bool
  | [], _ => true
  | _ :: _, [] => false
  | wanted :: rest, visited :: order =>
    if visited = wanted then occursIn rest order else occursIn (wanted :: rest) order

/-- Whether an order keeps the order hint. Extents that the hint does not name may be anywhere. -/
def allows (hints : Hints) (order : List Nat) : Bool :=
  match hints.joinOrder? with
  | none => true
  | some wanted => occursIn wanted order

/-- Refuses index hints on extents that the query does not have. An order hint is never refused:
one that no order keeps is dropped when orders are chosen. -/
def validate (hints : Hints) (extents : ExtentSet) : Planned Unit :=
  match hints.indexHints.find? fun hint => !extents.includes hint.extent with
  | none => .ok ()
  | some hint => .error (.invalidHint (.outsideQuery hint.index hint.extent extents.toList))

end Hints

end ExtentPlanner
