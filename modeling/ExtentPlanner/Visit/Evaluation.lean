import ExtentPlanner.Visit
import ExtentPlanner.Visit.Coverage
import ExtentPlanner.Visit.Narrowing

/-!
Finding the access paths of a visit. A lookup of a single object beats every scan, a reference
comes before an identity, and the numeric identity before its text form; the condition that gives
the lookup is taken out of those that remain to be evaluated. Without a lookup the implied type
assertions are dropped and the index is chosen that the remaining comparisons bound best.
-/
namespace ExtentPlanner

/-- A condition taken out of a list for what it gives. -/
structure Taken (α : Type) where
  found : α
  condition : Condition
  /-- The other conditions, in order. -/
  rest : List Condition

/-- Takes the first condition that gives something. -/
def takeFirst? {α : Type} (give? : Condition → Option α) : List Condition → Option (Taken α)
  | [] => none
  | condition :: rest =>
    match give? condition with
    | some found => some ⟨found, condition, rest⟩
    | none =>
      (takeFirst? give? rest).map fun taken => { taken with rest := condition :: taken.rest }

namespace Condition

/-- The operand that an identity of this kind must equal. -/
def identityLookupOf? (extent : Nat) (kind : IdentityKind) (condition : Condition) :
    Option (IdentityKind × Operand) :=
  (condition.identityLookup? extent).filter fun (found, _) => found == kind

end Condition

namespace Visit

/-- The condition that gives a reference lookup. -/
def takeReference? (visit : Visit) : Option (Taken Operand) :=
  takeFirst? (·.referenceLookup? visit.extent) visit.conditions

/-- The condition that gives an identity lookup; the numeric identity is cheaper to look up. -/
def takeIdentity? (visit : Visit) : Option (Taken (IdentityKind × Operand)) :=
  (takeFirst? (·.identityLookupOf? visit.extent .number) visit.conditions).or
    (takeFirst? (·.identityLookupOf? visit.extent .id) visit.conditions)

/-- The comparisons that can bound an index scan. -/
def comparisons (visit : Visit) : List ColumnComparison :=
  visit.conditions.filterMap (·.columnComparison? visit.extent)

def declared (visit : Visit) (hierarchy : Hierarchy) : DeclaredExtent :=
  ⟨hierarchy, visit.extent, visit.typeName⟩

/-- Drops implied type assertions and notes an impossible one. -/
def simplifyAssertions (visit : Visit) (hierarchy : Hierarchy) : Visit :=
  let declared := visit.declared hierarchy
  { visit with
    conditions := declared.dropImplied visit.conditions
    satisfiable := visit.satisfiable && !visit.conditions.any declared.excludes }

/-- Chooses the index that the comparisons bound best. -/
def chooseIndex (visit : Visit) (catalog : Catalog) : Visit :=
  { visit with
    bestIndex? := ExtentPlanner.bestIndex? visit.comparisons (catalog.indexesFor visit.typeName) }

/-- Finds a lookup or an index; a hinted index makes both unnecessary. -/
def chooseAccess (visit : Visit) (catalog : Catalog) : Visit :=
  if visit.hintedIndex?.isSome then visit
  else
    match visit.takeReference? with
    | some taken =>
      { visit with
        conditions := taken.rest
        reference? := some taken.found
        replaced? := some taken.condition }
    | none =>
      match visit.takeIdentity? with
      | some taken =>
        { visit with
          conditions := taken.rest
          identity? := some taken.found
          replaced? := some taken.condition }
      | none => (visit.simplifyAssertions catalog.hierarchy).chooseIndex catalog

/-- Finds the access paths of a visit, whose class must be registered. -/
def evaluate (visit : Visit) (catalog : Catalog) : Planned Visit :=
  if catalog.hierarchy.contains visit.typeName then
    .ok ({ visit with scanIndex? := catalog.scanIndex? visit.typeName }.chooseAccess catalog)
  else .error (.typeNotFound visit.typeName)

end Visit

end ExtentPlanner
