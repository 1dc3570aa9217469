import ExtentPlanner.JoinTree

/-!
Candidates: join trees that are being planned. A candidate keeps, beside its tree, the visitation
order it was made with, the position of every extent in that order, and the cost once it has been
asked for.

The cost is kept until a step that may change the top of the tree or its access paths forgets it.
Each step tells the candidate it leaves behind even when it fails, because what a failed step has
already done stays done.
-/
namespace ExtentPlanner

/-- A join tree that is being planned. -/
structure Candidate where
  top : JoinTree
  /-- The visitation order. -/
  order : List Nat
  /-- The position of each extent in the order, by extent number. -/
  positions : List (Option Nat)
  /-- The cost, if it is known. -/
  knownCost? : Option Float

namespace Candidate

/-! ## Tables by extent number -/

/-- The number above the greatest extent of an order. -/
def extentBound (order : List Nat) : Nat :=
  order.foldl (fun bound extent => max bound (extent + 1)) 0

/-- Writes entries at the numbers of their extents; a later one of the same number takes the place
of an earlier one. -/
def enter (table : List (Option α)) : List (Nat × α) → List (Option α)
  | [] => table
  | (extent, entry) :: rest => enter (table.set extent (some entry)) rest

def positionsOf (order : List Nat) : List (Option Nat) :=
  enter (List.replicate (extentBound order) none) order.zipIdx

/-- The candidate that a join tree starts as. -/
def ofTree (top : JoinTree) : Candidate where
  top := top
  order := top.visitOrder
  positions := positionsOf top.visitOrder
  knownCost? := none

/-- The position of an extent in the visitation order. -/
def position? (candidate : Candidate) (extent : Nat) : Option Nat :=
  candidate.positions[extent]?.join

/-- The visits by extent number. Each is entered at the extent that the order has in its place; of
several visits of one extent the last stays. -/
def visitsByNumber (candidate : Candidate) : List (Option Visit) :=
  enter (List.replicate candidate.positions.length none) (candidate.order.zip candidate.top.visits)

def visit? (candidate : Candidate) (extent : Nat) : Option Visit := candidate.top.visit? extent

/-! ## Cost -/

/-- The cost of the tree, computed only if it is not known. -/
def currentCost (candidate : Candidate) : Float :=
  match candidate.knownCost? with
  | some cost => cost
  | none => candidate.top.cost

/-- The candidate that knows its cost. -/
def rememberCost (candidate : Candidate) : Candidate :=
  { candidate with knownCost? := some candidate.currentCost }

def forgetCost (candidate : Candidate) : Candidate := { candidate with knownCost? := none }

/-- The visitation order, and the cost if it is known. -/
def written (candidate : Candidate) : String :=
  "order " ++ Listing.bracketed candidate.order ++
    match candidate.knownCost? with
    | some cost => " cost " ++ (Binary64.ofFloat cost).written
    | none => ""

/-! ## Steps -/

/-- Evaluates the visits in order, up to the first failure. -/
def evaluate (candidate : Candidate) (catalog : Catalog) : Candidate × Planned Unit :=
  match candidate.top.evaluateVisits catalog with
  | (top, .ok ()) => ({ candidate with top, knownCost? := none }, .ok ())
  | (top, .error failure) => ({ candidate with top }, .error failure)

/-- Changes the first visit of an extent, which the tree must have. -/
def modifyVisit (candidate : Candidate) (extent : Nat) (change : Visit → Visit) :
    Planned Candidate :=
  match candidate.top.modifyVisit? extent change with
  | some top => .ok { candidate with top }
  | none => .error (.internal (.noExtentNode extent))

/-- Marks the last visit of the order. -/
def markLastVisit (candidate : Candidate) : Planned Candidate :=
  match candidate.order.getLast? with
  | none => .ok candidate
  | some last => candidate.modifyVisit last (·.setInnermost true)

end Candidate

end ExtentPlanner
