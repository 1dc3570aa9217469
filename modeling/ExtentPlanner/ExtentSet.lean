import ExtentPlanner.Error

/-!
Sets of extent numbers. A condition may be evaluated at an extent once every extent it reads is
bound, so the set of extents it reads is the key that decides where it goes.

An extent set is a word of 64 bits, one for each extent number below 64. The operations are those
of finite sets; only adding a number can fail, and `boundPosition?` says where in a visitation
order a whole set is bound.
-/
namespace ExtentPlanner

/-- Number of extents that one query can read. -/
def maxExtents : Nat := 64

/-- A set of extent numbers below 64; bit `e` of the word says whether `e` is a member. -/
structure ExtentSet where
  word : UInt64
  deriving DecidableEq

namespace ExtentSet

def empty : ExtentSet := ⟨0⟩

instance : Inhabited ExtentSet := ⟨empty⟩

/-- The set whose word is a number, taken modulo 2^64. -/
def ofNat (raw : Nat) : ExtentSet := ⟨UInt64.ofNat raw⟩

/-- The word of the set as a number. -/
def toNat (set : ExtentSet) : Nat := set.word.toNat

/-- Membership; numbers of 64 and above are never members. -/
def includes (set : ExtentSet) (extent : Nat) : Bool :=
  decide (extent < maxExtents) && set.word &&& 1 <<< UInt64.ofNat extent != 0

def union (first second : ExtentSet) : ExtentSet := ⟨first.word ||| second.word⟩

def intersects (first second : ExtentSet) : Bool := first.word &&& second.word != 0

/-- Whether every member of the first set is a member of the second. -/
def isSubset (first second : ExtentSet) : Bool := first.word &&& ~~~second.word == 0

def isEmpty (set : ExtentSet) : Bool := set.word == 0

/-- The members in ascending order. -/
def toList (set : ExtentSet) : List Nat := (List.range maxExtents).filter set.includes

/-- The number of one bits of the word. -/
def size (set : ExtentSet) : Nat := set.word.toBitVec.cpop.toNat

/-- The members between braces. -/
def written (set : ExtentSet) : String := Listing.braced set.toList

/-- The set that also has `extent`; numbers of 64 and above leave it as it is. -/
def insert (set : ExtentSet) (extent : Nat) : ExtentSet :=
  if extent < maxExtents then ⟨set.word ||| 1 <<< UInt64.ofNat extent⟩ else set

/-- Adds an extent, which must be below 64. Tells the set that it leaves behind even when it
fails. -/
def addInPlace (set : ExtentSet) (extent : Nat) : ExtentSet × Planned Unit :=
  if extent < maxExtents then (set.insert extent, .ok ())
  else (set, .error (.internal (.extentOutOfRange extent)))

/-- The set with an extent added, which must be below 64. -/
def add (set : ExtentSet) (extent : Nat) : Planned ExtentSet :=
  let (left, added) := set.addInPlace extent
  added.map fun _ => left

/-- Adds extents from left to right; the first that does not fit is the failure. -/
def addAll (set : ExtentSet) : List Nat → Planned ExtentSet
  | [] => .ok set
  | extent :: rest => do (← set.add extent).addAll rest

def single (extent : Nat) : Planned ExtentSet := empty.add extent

def ofList (extents : List Nat) : Planned ExtentSet := empty.addAll extents

/-! ## Sets along a visitation order -/

/-- Walks the order with the extents bound so far. -/
def boundPositionFrom (set visited : ExtentSet) : List Nat → Option Nat
  | [] => none
  | extent :: rest =>
    let visited := visited.insert extent
    if set.isSubset visited then some 0
    else (boundPositionFrom set visited rest).map (· + 1)

/-- The first position of the order at which every member is bound. The empty set is bound at the
first position; a set with a member outside the order is never bound. -/
def boundPosition? (set : ExtentSet) (order : List Nat) : Option Nat :=
  set.boundPositionFrom empty order

/-- The latest position for which all subsets of the preceding extents are listed. -/
def maxListedPosition : Nat := 16

/-- Every set with a subset of `extents` added to `base`. The k-th set adds the extents whose
place in the list is a one bit of k. -/
def withSubsets (base : ExtentSet) (extents : List Nat) : List ExtentSet :=
  extents.foldl (fun sets extent => sets ++ sets.map (·.insert extent)) [base]

/-- Every key of a condition that can first be evaluated at `current`: `current` together with any
subset of the extents that the order visits before it. -/
def keysBoundAt (current : Nat) (order : List Nat) : Planned (List ExtentSet) :=
  match order.findIdx? (· == current) with
  | none => .error (.internal (.missingFromOrder current order))
  | some position =>
    if maxListedPosition < position then
      .error (.internal (.tooDeepToList current position maxListedPosition))
    else do
      let base ← single current
      let preceding := order.take position
      let _ ← ofList preceding
      .ok (base.withSubsets preceding)

end ExtentSet

end ExtentPlanner
