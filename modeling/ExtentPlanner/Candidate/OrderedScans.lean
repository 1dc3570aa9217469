import ExtentPlanner.Candidate

/-!
Orders delivered by index scans. A sort, or the sorting inside an aggregation, is unnecessary when
the extents that the order is about are visited first and in its order, each through an index that
delivers its part. Such scans may read more than the access paths they replace, so they are kept
only if the candidate becomes strictly cheaper; otherwise everything is put back.
-/
namespace ExtentPlanner.Candidate

/-- The use of an index by the first visit of an extent, to deliver rows in order. -/
structure OrderAssignment where
  extent : Nat
  use : IndexUse

/-- Whether a visit may be read by this use of an index: a hint allows only the hinted index, and
only forward. Indexes are told apart by what they are. That is enough within one declared catalog,
where no two indexes are equal (`Catalog.Declared.nodup`, `permits_iff_place`); but an index that
was hinted with another catalog, built apart from this one, is taken for an equal index of this
one. -/
def permits (visit : Visit) (use : IndexUse) : Bool :=
  match visit.hintedIndex? with
  | none => true
  | some hinted => hinted == use.index && use.direction == .ascending

/-- The index by which an extent delivers its part of the order. -/
def orderAssignment? (candidate : Candidate) (catalog : Catalog) (spec : SortSpec) (extent : Nat) :
    Option OrderAssignment := do
  let visit ← candidate.visit? extent
  let use ← spec.index? catalog extent visit.typeName
  if permits visit use then some ⟨extent, use⟩ else none

/-- The indexes that together deliver the order, if the candidate can. -/
def orderAssignments? (candidate : Candidate) (catalog : Catalog) (spec : SortSpec) :
    Option (List OrderAssignment) := do
  let required ← spec.requiredVisitOrder?
  if required.isEmpty || !required.isPrefixOf candidate.order then none
  else required.mapM (candidate.orderAssignment? catalog spec)

/-- Sets the order index of extents from left to right, up to one that the tree does not have. -/
def setOrderIndexes (candidate : Candidate) :
    List (Nat × Option IndexUse) → Candidate × Planned Unit
  | [] => (candidate.forgetCost, .ok ())
  | (extent, use?) :: rest =>
    match candidate.modifyVisit extent (·.setOrderIndex use?) with
    | .ok changed => changed.setOrderIndexes rest
    | .error failure => (candidate, .error failure)

/-- What each extent of the assignments has as its order index now. -/
def previousOrderIndexes (candidate : Candidate) (assignments : List OrderAssignment) :
    List (Nat × Option IndexUse) :=
  assignments.map fun assignment =>
    (assignment.extent, (candidate.visit? assignment.extent).bind (·.orderIndex?))

/-- The assignments as order indexes to set. -/
def assignedOrderIndexes (assignments : List OrderAssignment) : List (Nat × Option IndexUse) :=
  assignments.map fun assignment => (assignment.extent, some assignment.use)

/-- Sets order indexes back to what they were, and tells that nothing was replaced. -/
def restoreOrderIndexes (candidate : Candidate) (previous : List (Nat × Option IndexUse)) :
    Candidate × Planned Bool :=
  match candidate.setOrderIndexes previous with
  | (restored, .ok ()) => (restored, .ok false)
  | (restored, .error failure) => (restored, .error failure)

/-- Replaces a sort at the top by index scans that deliver its order, if that is strictly cheaper.
Tells whether the sort is gone. -/
def replaceSort (candidate : Candidate) (catalog : Catalog) : Candidate × Planned Bool :=
  match candidate.top with
  | .sort spec _ =>
    match candidate.orderAssignments? catalog spec with
    | none => (candidate, .ok false)
    | some assignments =>
      let known := candidate.rememberCost
      match known.setOrderIndexes (assignedOrderIndexes assignments) with
      | (changed, .error failure) => (changed, .error failure)
      | (changed, .ok ()) =>
        match changed.top with
        | .sort _ input =>
          if input.cost < known.currentCost then
            ({ changed with top := input, knownCost? := none }, .ok true)
          else
            changed.restoreOrderIndexes (candidate.previousOrderIndexes assignments)
        | _ => (changed, .error (.internal .topChanged))
  | _ => (candidate, .ok false)

/-- Says whether the aggregation near the top has presorted input. -/
def setPresorted (candidate : Candidate) (presorted : Bool) : Candidate :=
  { candidate with top := candidate.top.setPresorted presorted }

/-- Gives an aggregation near the top its input in grouping order by index scans, if that is
strictly cheaper. Tells whether the input is presorted now. -/
def presortInput (candidate : Candidate) (catalog : Catalog) : Candidate × Planned Bool :=
  match candidate.top.topGrouping? with
  | none => (candidate, .ok false)
  | some grouping =>
    match candidate.orderAssignments? catalog grouping.groupBy with
    | none => (candidate, .ok false)
    | some assignments =>
      let known := candidate.rememberCost
      match known.setOrderIndexes (assignedOrderIndexes assignments) with
      | (changed, .error failure) => (changed, .error failure)
      | (changed, .ok ()) =>
        let presorted := (changed.setPresorted true).rememberCost
        if presorted.currentCost < known.currentCost then (presorted, .ok true)
        else
          (presorted.setPresorted false).restoreOrderIndexes
            (candidate.previousOrderIndexes assignments)

end ExtentPlanner.Candidate
