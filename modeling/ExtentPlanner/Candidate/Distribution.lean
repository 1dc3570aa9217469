import ExtentPlanner.Candidate
import ExtentPlanner.Condition.ConjunctTable
import ExtentPlanner.Hints
import ExtentPlanner.JoinTree.PostFilter

/-!
Handing index hints and conditions to the visits of a candidate. A condition goes to the first
visit at which everything it reads is bound; a null test on an extent that an outer join may fill
with nulls goes behind a join instead.
-/
namespace ExtentPlanner.Candidate

/-! ## Index hints -/

/-- The position of the visit that a hint is about, and the hinted index. The visit at the position
is the one that `visitsByNumber` has for the extent, whatever has been done with the candidate
(`hints_resolve_by_number`). -/
def resolveHint (candidate : Candidate) (catalog : Catalog) (hint : IndexHint) :
    Planned (Nat × Index) :=
  match catalog.find? hint.index with
  | none => .error (.invalidHint (.unknownIndex hint.index))
  | some index =>
    let visited? := (candidate.position? hint.extent).bind fun position =>
      candidate.top.visits[position]?.map fun visit => (position, visit)
    match visited? with
    | none => .error (.invalidHint (.unknownExtent hint.index hint.extent))
    | some (position, visit) =>
      if catalog.canScan index visit.typeName then .ok (position, index)
      else .error (.invalidHint (.notApplicable hint.index visit.typeName))

/-- Changes the visit at a position of the order. -/
def modifyAt (candidate : Candidate) (position : Nat) (change : Visit → Visit) : Candidate :=
  { candidate with
    top := candidate.top.mapVisits fun place visit =>
      if place = position then change visit else visit }

/-- Hands hints to their visits from left to right, up to the first that cannot be used. The first
hint of a visit wins. -/
def distributeHints (candidate : Candidate) (catalog : Catalog) :
    List IndexHint → Candidate × Planned Unit
  | [] => (candidate, .ok ())
  | hint :: rest =>
    match candidate.resolveHint catalog hint with
    | .ok (position, index) =>
      (candidate.modifyAt position (·.hint index)).distributeHints catalog rest
    | .error failure => (candidate, .error failure)

/-! ## Conditions -/

/-- Where each condition of a table is to go. -/
structure Placement where
  /-- Conditions of visits, with the position of the visit. -/
  placed : List (Nat × Condition)
  /-- Conditions that have to wait for a join. -/
  postFilters : List JoinTree.PostFilter

/-- Sorts the conditions of one group into those for the visit at `position` and those that have
to wait, because they test an extent of `nullSupplied`. -/
def placeGroup (nullSupplied : ExtentSet) (position : Nat) (key : ExtentSet) :
    List Condition → Planned Placement
  | [] => .ok ⟨[], []⟩
  | condition :: rest => do
    let tested ← condition.nullTestedSet
    let others ← placeGroup nullSupplied position key rest
    .ok (if tested.intersects nullSupplied then
      { others with postFilters := ⟨condition, key, tested⟩ :: others.postFilters }
    else { others with placed := (position, condition) :: others.placed })

/-- Sorts the conditions of all groups. Groups that read an extent outside the order stay out. -/
def placeGroups (nullSupplied : ExtentSet) (order : List Nat) :
    List ConjunctGroup → Planned Placement
  | [] => .ok ⟨[], []⟩
  | group :: rest =>
    match group.key.boundPosition? order with
    | none => placeGroups nullSupplied order rest
    | some position => do
      let own ← placeGroup nullSupplied position group.key group.conditions
      let others ← placeGroups nullSupplied order rest
      .ok ⟨own.placed ++ others.placed, own.postFilters ++ others.postFilters⟩

namespace Placement

/-- The conditions of the visit at a position, in order. -/
def conditionsAt (placement : Placement) (position : Nat) : List Condition :=
  (placement.placed.filter fun (place, _) => place == position).map (·.2)

end Placement

/-- Attaches conditions to joins, from left to right, up to the first that no join can evaluate.
Those before it stay attached. -/
def attachPostFilters (top : JoinTree) : List JoinTree.PostFilter → JoinTree × Planned Unit
  | [] => (top, .ok ())
  | filter :: rest =>
    match top.attachLowest? filter with
    | .ok (some placed) => attachPostFilters placed rest
    | .ok none => (top, .error (.internal (.noJoinForPostFilter filter.condition.written)))
    | .error failure => (top, .error failure)

/-- Hands every condition of a table to a visit or a join. It is a failure if some condition reads
an extent that the candidate does not visit; the others are handed out even then. -/
def distributeConditions (candidate : Candidate) (table : ConjunctTable) :
    Candidate × Planned Unit :=
  let placement := do
    placeGroups (← candidate.top.nullSupplied) candidate.order table.groups
  match placement with
  | .error failure => (candidate, .error failure)
  | .ok placement =>
    let visited := candidate.top.mapVisits fun position visit =>
      visit.addConditions (placement.conditionsAt position)
    match attachPostFilters visited placement.postFilters with
    | (top, .error failure) => ({ candidate with top }, .error failure)
    | (top, .ok ()) =>
      let distributed := placement.placed.length + placement.postFilters.length
      ({ candidate with top },
        if distributed = table.size then .ok ()
        else .error (.internal
          (.conditionsOutsidePlan (table.size - distributed) table.size)))

end ExtentPlanner.Candidate
