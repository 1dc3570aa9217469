import ExtentPlanner.Candidate.Distribution
import ExtentPlanner.Proofs.CatalogSearches
import ExtentPlanner.Proofs.ClassOrder
import ExtentPlanner.Proofs.OrderedScanSteps
import ExtentPlanner.Proofs.RowOrder

/-! What is left of a candidate whose sort has been replaced by index scans. The tree below the sort
becomes the whole tree, and all that changes in it is by which index the extents of the sort are
scanned. Each of them gets an index that applies to its class and has the columns of the sort as its
key, as they are for a forward scan and reversed for a backward one. A hint is not overruled: if the
extent has one, the index found is the hinted one. -/
namespace ExtentPlanner.Candidate

/-- The items of a specification on the extent of a visit come in order from a scan of the visit's
class, by the hinted index if there is one. -/
structure DeliversItems (catalog : Catalog) (spec : SortSpec) (visit : Visit) (use : IndexUse) :
    Prop where
  declared : use.index ∈ catalog.indexes
  applies : catalog.hierarchy.isSubtype visit.typeName use.index.typeName = true
  forward : use.direction = .ascending → use.index.sortKey = spec.sortKey visit.extent
  backward : use.direction = .descending →
    use.index.sortKey = SortKey.reversed (spec.sortKey visit.extent)
  hinted : ∀ index, visit.hintedIndex? = some index → use = ⟨index, .ascending⟩

/-- How a visit is changed when a sort is replaced: not at all unless the sort requires its extent,
and then in its order index only. -/
inductive Replaces (catalog : Catalog) (spec : SortSpec) (required : List Nat) :
    Visit → Visit → Prop where
  | elsewhere (apart : visit.extent ∉ required) : Replaces catalog spec required visit visit
  | ordered (inside : visit.extent ∈ required) (delivers : DeliversItems catalog spec visit use) :
    Replaces catalog spec required visit { visit with orderIndex? := some use }

/-- The sort at the top of a candidate has been replaced by scans of the extents it requires. -/
structure SortReplaced (catalog : Catalog) (spec : SortSpec) (input : JoinTree)
    (required : List Nat) (before after : Candidate) : Prop where
  top : before.top = .sort spec input
  order : spec.requiredVisitOrder? = some required
  notEmpty : required ≠ []
  first : required <+: before.order
  visited : ∀ extent ∈ required, extent ∈ input.visitOrder
  /-- Every item is a column of a required extent, so that the scans leave out none. -/
  columns : ∀ item ∈ spec.items, ∃ extent ∈ required, ∃ column,
    item.operand = .path extent [column]
  visits : JoinTree.Pointwise (Replaces catalog spec required) input after.top
  sameOrder : after.order = before.order
  samePositions : after.positions = before.positions

variable {candidate next : Candidate} {catalog : Catalog} {spec : SortSpec} {visit : Visit}
  {use : IndexUse}

/-- An index that is found for the items of a specification and permitted delivers them. -/
theorem DeliversItems.of_index? (found : spec.index? catalog visit.extent visit.typeName = some use)
    (permitted : permits visit use = true) : DeliversItems catalog spec visit use := by
  obtain ⟨listed, _, keyed⟩ := Catalog.orderIndex?_spec found
  obtain ⟨declared, applies⟩ := Catalog.mem_indexesFor_iff.mp listed
  refine ⟨declared, applies, fun forward => ?_, fun backward => ?_, permits_iff.mp permitted⟩
  · rcases keyed with ⟨_, same⟩ | ⟨other, _⟩
    · exact same
    · cases forward.symm.trans other
  · rcases keyed with ⟨other, _⟩ | ⟨_, same⟩
    · cases backward.symm.trans other
    · exact same

/-- Equal indexes of a declared catalog stand in one place of it. So a hint permits a use exactly if
it is the hinted index itself that is used, forward. -/
theorem permits_iff_place {hinted : Index} {first second : Nat} (declared : catalog.Declared)
    (hint : visit.hintedIndex? = some hinted) (given : catalog.indexes[first]? = some hinted)
    (found : catalog.indexes[second]? = some use.index) :
    permits visit use = true ↔ first = second ∧ use.direction = .ascending := by
  rw [permits, hint]
  dsimp only
  rw [Bool.and_eq_true, beq_iff_eq, beq_iff_eq]
  refine and_congr_left fun _ => ⟨fun same => ?_, ?_⟩
  · rw [← same] at found
    exact (List.getElem?_inj (List.getElem?_eq_some_iff.mp given).1 declared.nodup).mp
      (given.trans found.symm)
  · rintro rfl
    exact Option.some.inj (given.symm.trans found)

theorem Deliverable.replaces {required : List Nat}
    (deliverable : candidate.Deliverable catalog spec required)
    (member : visit ∈ candidate.top.visits) :
    Replaces catalog spec required visit (deliver catalog spec required visit) := by
  rw [deliver]
  split
  · rename_i inside
    obtain ⟨use, found, permitted⟩ := deliverable.served visit member inside
    rw [found]
    exact .ordered inside (.of_index? found permitted)
  · rename_i apart
    exact .elsewhere apart

/-- Avoiding a sort succeeds only with assignments for all that the sort requires. -/
theorem orderAssignments?_of_replaceSort {input : JoinTree} (top : candidate.top = .sort spec input)
    (ran : candidate.replaceSort catalog = (next, .ok true)) :
    ∃ assignments, candidate.orderAssignments? catalog spec = some assignments := by
  rw [replaceSort, top] at ran
  dsimp only at ran
  split at ran
  · cases ran
  · exact ⟨_, ‹_›⟩

/-- A sort is only taken away for scans of the extents that it requires, visited first and in its
order, and nothing else is changed. -/
theorem sort_replaced_by_scans (distinct : candidate.top.visitOrder.Nodup)
    (ran : candidate.replaceSort catalog = (next, .ok true)) :
    ∃ spec input required, SortReplaced catalog spec input required candidate next := by
  rcases replaceSort_cases distinct catalog with
    ⟨_, refused⟩ | ⟨spec, input, required, top, deliverable, done⟩
  · rw [refused] at ran
    cases ran
  obtain ⟨assignments, found⟩ := orderAssignments?_of_replaceSort top ran
  obtain ⟨assigned, each⟩ := orderAssignments?_some distinct found
  obtain rfl : assignments.map (·.extent) = required :=
    Option.some.inj (assigned.order.symm.trans deliverable.order)
  rw [done] at ran
  cases ran
  refine ⟨spec, input, _, top, deliverable.order, deliverable.notEmpty, deliverable.first, ?_, ?_,
    ?_, rfl, rfl⟩
  · intro extent inside
    obtain ⟨assignment, listed, rfl⟩ := List.mem_map.mp inside
    have visited := (each assignment listed).1
    rwa [top] at visited
  · intro item member
    obtain ⟨extent, inside, column⟩ :=
      SortSpec.columns_of_visitOrderFrom deliverable.order item member
    exact ⟨extent, inside, SortItem.columnExtent?_eq_some.mp column⟩
  · exact JoinTree.updateEach_related fun leaf member =>
      deliverable.replaces (by rwa [top] : leaf ∈ candidate.top.visits)

/-- An index of persons by age, which employees can be scanned by. -/
def personAge : Index := ⟨"PersonAge", "Person", [⟨"age", .ascending, .integer⟩]⟩

def petName : Index := ⟨"PetName", "Pet", [⟨"name", .ascending, .string⟩]⟩

def petHistory : List Catalog.Declaration :=
  [.type "Person" none, .type "Employee" (some "Person"), .type "Pet" none,
    .index personAge.name "Person" personAge.columns, .index petName.name "Pet" petName.columns]

/-- Employees with their pets. -/
def employeesAndPets : JoinTree :=
  .join .inner (.visit (.unplanned 0 "Employee")) (.visit (.unplanned 1 "Pet")) []

/-- Employees by age and pets by name backward, when the index of persons has been hinted for the
employees and the visits have been evaluated. -/
def employeesReady : Candidate :=
  let sorted := ofTree (.sort ⟨[⟨.path 0 ["age"], .ascending⟩, ⟨.path 1 ["name"], .descending⟩]⟩
    employeesAndPets)
  let catalog := (Catalog.empty 0).declareAll petHistory
  ((sorted.distributeHints catalog [⟨0, personAge.name⟩]).1.evaluate catalog).1

/-- The same candidate when it has been asked for its cost: that of sorting what an index scan and
an extent scan find. -/
def employeesByAge : Candidate :=
  { employeesReady with knownCost? := some 1528.7712379549448 }

theorem rememberCost_employeesReady (logarithms : Logarithms) :
    employeesReady.rememberCost = employeesByAge := by
  have asked : ∃ input, employeesReady.currentCost = JoinTree.sortCost input ∧ input = 200 :=
    ⟨_, rfl, by decide +kernel⟩
  obtain ⟨input, asked, rfl⟩ := asked
  rw [rememberCost, asked, logarithms.sortCost_indexed, employeesByAge]

/-- The hinted index is scanned forward and the one of pets, which is not hinted, backward. -/
theorem sort_replaced_by_scans_employees :
    (Logarithms → employeesReady.rememberCost = employeesByAge) ∧
    ∃ next spec input, employeesByAge.replaceSort ((Catalog.empty 0).declareAll petHistory) =
        (next, .ok true) ∧
      SortReplaced ((Catalog.empty 0).declareAll petHistory) spec input [0, 1] employeesByAge next ∧
      next.top.visits.map (·.orderIndex?) =
        [some ⟨personAge, .ascending⟩, some ⟨petName, .descending⟩] := by
  have ran : ∃ next, employeesByAge.replaceSort ((Catalog.empty 0).declareAll petHistory) =
      (next, .ok true) ∧ next.top.visits.map (·.orderIndex?) =
        [some ⟨personAge, .ascending⟩, some ⟨petName, .descending⟩] := ⟨_, rfl, rfl⟩
  obtain ⟨next, ran, ordered⟩ := ran
  have distinct : employeesByAge.top.visitOrder.Nodup := by decide
  obtain ⟨spec, input, required, replaced⟩ := sort_replaced_by_scans distinct ran
  have order : spec.requiredVisitOrder? = some [0, 1] := by
    obtain ⟨rfl, _⟩ := JoinTree.sort.inj replaced.top
    decide
  obtain rfl : required = [0, 1] := Option.some.inj (replaced.order.symm.trans order)
  exact ⟨rememberCost_employeesReady, next, spec, input, ran, replaced, ordered⟩

end ExtentPlanner.Candidate
