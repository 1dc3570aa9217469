import ExtentPlanner.Proofs.ClassOrder
import ExtentPlanner.Proofs.NestedLoops
import ExtentPlanner.Proofs.OrderedScanSteps
import Mathlib.Data.Int.Order.Basic

/-! Whether index scans that replace a sort deliver its order. Objects of the extent that is visited
first come in the order of its scan, and each of them is joined with all that the inner loops find.
So the order is right if the specification is about that extent alone. As soon as it goes on to a
second extent, two objects that agree on the first part of the specification separate rows of the
second part, and for some database the rows come out of order. -/
namespace ExtentPlanner

variable {catalog : Catalog} {generator? : Option FilterGenerator} {spec : SortSpec}

/-! ## Visits that deliver an order -/

/-- A visit with a permitted order index scans this index. -/
theorem Visit.access_ordered (generator? : Option FilterGenerator) {visit : Visit}
    (permitted : Candidate.permits visit use = true) :
    ∃ ranges filter, (visit.setOrderIndex (some use)).access generator? =
      .ok (.indexScan visit.extent use.index use.direction ranges filter visit.innermost) := by
  cases hint : visit.hintedIndex? with
  | none =>
    simp only [Visit.access, Visit.setOrderIndex, hint]
    exact ⟨_, _, rfl⟩
  | some hinted =>
    obtain rfl := Candidate.permits_iff.mp permitted hinted hint
    simp only [Visit.access, Visit.setOrderIndex, hint]
    exact ⟨_, _, rfl⟩

namespace Database

variable {Value : Type} [LinearOrder Value] (db : Database Value)

/-- A scan by an index found for a key finds objects in the order of the key. -/
theorem scanned_inOrder (found : catalog.orderIndex? typeName key = some use) :
    (db.scanned use.index use.direction).Pairwise (InOrder (key.parts Value)) := by
  obtain ⟨_, _, ⟨forward, same⟩ | ⟨backward, same⟩⟩ := Catalog.orderIndex?_spec found
  · rw [forward, ← same]
    exact db.sorted use.index
  · rw [backward, scanned, List.pairwise_reverse]
    refine (db.sorted use.index).imp fun inOrder => ?_
    rw [same] at inOrder
    exact (SortKey.inOrder_reversed key _ _).mp inOrder

theorem objects_ordered (generator? : Option FilterGenerator) {visit : Visit}
    (permitted : Candidate.permits visit use = true) :
    ∃ passes : Row Value → Object Value → Bool, ∀ outer,
      db.objects generator? (visit.setOrderIndex (some use)) outer =
        (db.scanned use.index use.direction).filter (passes outer) := by
  obtain ⟨ranges, filter, scan⟩ := Visit.access_ordered generator? permitted
  refine ⟨db.passes (.indexScan visit.extent use.index use.direction ranges filter
    visit.innermost), fun outer => ?_⟩
  rw [objects, scan]

end Database

/-! ## A database with ties -/

/-- Objects all members of which have one value. -/
def constantObjects (values : List Int) : List (Object Int) := values.map fun value _ => value

/-- Three values, one of them twice, in a direction. -/
def tiedValues : Direction → List Int
  | .ascending => [-1, 0, 0, 1]
  | .descending => [1, 0, 0, -1]

/-- The direction of the first column of a key. -/
def SortKey.direction (key : SortKey) : Direction := (key.head?.map (·.2)).getD .ascending

private theorem tiedValues_inOrder (key : SortKey) :
    (constantObjects (tiedValues key.direction)).Pairwise (InOrder (key.parts Int)) := by
  have ordered : ∀ direction, (tiedValues direction).Pairwise fun low high =>
      low = high ∨ direction.Before low high := by
    intro direction
    cases direction <;> simp [tiedValues, Direction.Before]
  rw [constantObjects, List.pairwise_map]
  refine (ordered key.direction).imp fun {low high} inOrder => ?_
  rcases inOrder with rfl | strictly
  · exact inOrder_of_agree fun _ _ => rfl
  · cases key with
    | nil => trivial
    | cons entry rest => exact .inl strictly

/-- Every index has objects with tied values, and nothing is ever filtered out, whatever the filter
says. Two of the objects have the same number as well, so that there are ties by every key. -/
def tiedDatabase : Database Int where
  stored index := constantObjects (tiedValues index.sortKey.direction)
  sorted index := tiedValues_inOrder index.sortKey
  complete first second _ := by
    have all : ∀ direction, (tiedValues direction).Perm [-1, 0, 0, 1] := by
      intro direction
      cases direction <;> decide
    exact ((all _).trans (all _).symm).map _
  passes _ _ _ := true
  found _ _ := constantObjects [0]
  accepts _ _ := true
  null := 0
  operand _ _ := 0

/-- What a visit finds in the database with ties does not depend on the outer row. -/
def tiedDelivery (generator? : Option FilterGenerator) (visit : Visit) : List (Object Int) :=
  tiedDatabase.objects generator? visit fun _ _ => 0

theorem tiedDelivery_constant (visit : Visit) (outer : Row Int) :
    tiedDatabase.objects generator? visit outer = tiedDelivery generator? visit := by
  rw [tiedDelivery, Database.objects, Database.objects]
  split <;> rfl

private theorem tiedDatabase_scanned (index : Index) (direction : Direction) :
    ∃ other, tiedDatabase.scanned index direction = constantObjects (tiedValues other) := by
  cases direction with
  | ascending => exact ⟨index.sortKey.direction, rfl⟩
  | descending =>
    refine ⟨index.sortKey.direction.reverse, ?_⟩
    change (constantObjects (tiedValues index.sortKey.direction)).reverse = _
    cases index.sortKey.direction <;> rfl

private theorem tiedDelivery_ne_nil (visit : Visit) : tiedDelivery generator? visit ≠ [] := by
  rw [tiedDelivery, Database.objects]
  split
  · rename_i index direction _ _ _ _
    obtain ⟨other, scanned⟩ := tiedDatabase_scanned index direction
    rw [scanned]
    cases other <;> simp [tiedDatabase, constantObjects, tiedValues]
  · simp [tiedDatabase, constantObjects]

private theorem tiedDelivery_ordered {visit : Visit}
    (permitted : Candidate.permits visit use = true) :
    ∃ direction, tiedDelivery generator? (visit.setOrderIndex (some use)) =
      constantObjects (tiedValues direction) := by
  obtain ⟨ranges, filter, scan⟩ := Visit.access_ordered generator? permitted
  obtain ⟨direction, scanned⟩ := tiedDatabase_scanned use.index use.direction
  refine ⟨direction, ?_⟩
  rw [tiedDelivery, Database.objects, scan]
  dsimp only
  rw [scanned]
  exact List.filter_eq_self.mpr fun _ _ => rfl

/-- A row in which the two outermost visits find these values. -/
private theorem exists_tied_row {first second : Visit} {rest : List Visit} {outer : Row Int}
    (distinct : ((first :: second :: rest).map (·.extent)).Nodup)
    (found : (fun _ => value) ∈ tiedDelivery generator? second) :
    ∃ row ∈ Database.product (tiedDelivery generator?) (second :: rest)
        (Function.update outer first.extent fun _ => 0),
      row first.extent = (fun _ => 0) ∧ row second.extent = fun _ => value := by
  simp only [List.map_cons, List.nodup_cons, List.mem_cons, not_or] at distinct
  obtain ⟨⟨apart, notFirst⟩, notSecond, _⟩ := distinct
  let inner := Function.update (Function.update outer first.extent fun _ => 0) second.extent
    fun _ => value
  have nonempty : Database.product (tiedDelivery generator?) rest inner ≠ [] :=
    Database.product_ne_nil (fun leaf _ => tiedDelivery_ne_nil leaf) inner
  obtain ⟨row, others, whole⟩ := List.exists_cons_of_ne_nil nonempty
  have member : row ∈ Database.product (tiedDelivery generator?) rest inner := by
    rw [whole]
    exact List.mem_cons_self
  refine ⟨row, List.mem_flatMap.mpr ⟨_, found, member⟩, ?_, ?_⟩
  · rw [Database.product_elsewhere notFirst row member]
    simp [inner, Function.update_of_ne apart]
  · rw [Database.product_elsewhere notSecond row member]
    simp [inner]

/-- Ties on the first of two extents bring the rows of the second out of order. -/
private theorem not_delivers_of_two {tree : JoinTree} {first second : Visit} {rest : List Visit}
    (joins : tree.JoinsOnly) (distinct : tree.visitOrder.Nodup)
    (visits : tree.visits = first :: second :: rest)
    (firstTied : ∃ direction,
      tiedDelivery generator? first = constantObjects (tiedValues direction))
    (secondTied : ∃ direction,
      tiedDelivery generator? second = constantObjects (tiedValues direction))
    (items : spec.items = leading ++ item :: later)
    (leads : ∀ item ∈ leading, item.columnExtent? = some first.extent)
    (follows : item.columnExtent? = some second.extent) : ¬ tree.Delivers generator? spec := by
  intro delivers
  have sorted := delivers Int tiedDatabase fun _ _ => 0
  rw [Database.rows_eq_product joins (fun leaf _ => tiedDelivery_constant leaf)
    (fun leaf _ => tiedDelivery_ne_nil leaf) (fun _ _ => rfl), visits, Database.product,
    List.pairwise_flatMap] at sorted
  rw [JoinTree.visitOrder_eq_map, visits] at distinct
  -- The two equal objects of the first extent put every two rows below them in relation.
  have tied : ∀ before ∈ Database.product (tiedDelivery generator?) (second :: rest)
      (Function.update (fun _ _ => 0) first.extent fun _ => 0),
      ∀ after ∈ Database.product (tiedDelivery generator?) (second :: rest)
        (Function.update (fun _ _ => 0) first.extent fun _ => 0),
      InOrder (SortSpec.parts tiedDatabase.operand spec.items) before after := by
    obtain ⟨direction, objects⟩ := firstTied
    have pairs := sorted.2
    rw [objects] at pairs
    cases direction <;>
      simp only [constantObjects, tiedValues, List.map_cons, List.map_nil, List.pairwise_cons,
        List.mem_cons, forall_eq_or_imp] at pairs
    · exact pairs.2.1.1
    · exact pairs.2.1.1
  have found : ∀ value ∈ ([1, -1] : List Int),
      (fun _ => value) ∈ tiedDelivery generator? second := by
    obtain ⟨direction, objects⟩ := secondTied
    rw [objects]
    intro value listed
    refine List.mem_map.mpr ⟨value, ?_, rfl⟩
    revert value
    cases direction <;> decide
  obtain ⟨member, column⟩ := SortItem.columnExtent?_eq_some.mp follows
  have compared : ∀ low ∈ ([1, -1] : List Int), ∀ high ∈ ([1, -1] : List Int),
      item.direction.Before low high ∨ low = high := by
    intro low isLow high isHigh
    obtain ⟨before, inBefore, beforeFirst, beforeSecond⟩ :=
      exists_tied_row distinct (found low isLow)
    obtain ⟨after, inAfter, afterFirst, afterSecond⟩ := exists_tied_row distinct (found high isHigh)
    have inOrder := tied before inBefore after inAfter
    rw [items, SortSpec.parts, List.map_append, inOrder_append ?_, List.map_cons, InOrder, column,
      Operand.valueIn, Operand.valueIn, beforeSecond, afterSecond] at inOrder
    · exact inOrder.imp_right And.left
    · intro part inside
      obtain ⟨leader, listed, rfl⟩ := List.mem_map.mp inside
      obtain ⟨name, plain⟩ := SortItem.columnExtent?_eq_some.mp (leads leader listed)
      change leader.operand.valueIn _ before = leader.operand.valueIn _ after
      rw [plain, Operand.valueIn, Operand.valueIn, beforeFirst, afterFirst]
  cases direction : item.direction with
  | ascending =>
    have wrong := compared 1 (by decide) (-1) (by decide)
    rw [direction] at wrong
    revert wrong
    simp [Direction.Before]
  | descending =>
    have wrong := compared (-1) (by decide) 1 (by decide)
    rw [direction] at wrong
    revert wrong
    simp [Direction.Before]

/-- The single extent of a specification is delivered in order by its own scan. -/
private theorem delivers_of_one {tree : JoinTree} {leaf : Visit} {use : IndexUse}
    (distinct : tree.visitOrder.Nodup)
    (first : tree.visits.head? = some (leaf.setOrderIndex (some use)))
    (found : spec.index? catalog leaf.extent leaf.typeName = some use)
    (permitted : Candidate.permits leaf use = true)
    (each : ∀ item ∈ spec.items, item.columnExtent? = some leaf.extent) :
    tree.Delivers generator? spec := by
  intro Value _ db outer
  obtain ⟨passes, objects⟩ := db.objects_ordered generator? permitted
  have delivered : ∀ outer, (db.objects generator? (leaf.setOrderIndex (some use)) outer).Pairwise
      (InOrder ((spec.sortKey leaf.extent).parts Value)) := by
    intro outer
    rw [objects outer]
    exact (db.scanned_inOrder found).filter _
  exact (Database.rows_leading (fun _ => inOrder_of_agree fun _ _ => rfl) distinct first
    delivered).imp fun {before after} inOrder =>
      (SortSpec.inOrder_of_column db.operand each before after).mpr inOrder

namespace Candidate

variable {candidate : Candidate}

/-- Scans that replace a sort or the sorting of a grouping deliver its order exactly if it is about
a single extent. -/
theorem Deliverable.delivers_iff {input : JoinTree}
    (deliverable : candidate.Deliverable catalog spec required)
    (ordered : candidate.order = candidate.top.visitOrder)
    (distinct : candidate.top.visitOrder.Nodup) (same : input.visits = candidate.top.visits)
    (joins : input.JoinsOnly) :
    (input.updateEach (deliver catalog spec required)).Delivers generator? spec ↔
      ∃ extent, spec.requiredVisitOrder? = some [extent] := by
  have sameOrder : input.visitOrder = candidate.top.visitOrder := by
    rw [JoinTree.visitOrder_eq_map, same, JoinTree.visitOrder_eq_map]
  have distinctInput : (input.updateEach (deliver catalog spec required)).visitOrder.Nodup := by
    rw [visitOrder_deliver, sameOrder]
    exact distinct
  have order := deliverable.order
  have delivers : ∀ leaf ∈ input.visits, leaf.extent ∈ required → ∃ use,
      spec.index? catalog leaf.extent leaf.typeName = some use ∧ permits leaf use = true ∧
        deliver catalog spec required leaf = leaf.setOrderIndex (some use) := by
    intro leaf member inside
    obtain ⟨use, found, permitted⟩ := deliverable.served leaf (same ▸ member) inside
    exact ⟨use, found, permitted, by rw [deliver, if_pos inside, found]⟩
  have leads : required <+: input.visits.map (·.extent) := by
    rw [← JoinTree.visitOrder_eq_map, sameOrder, ← ordered]
    exact deliverable.first
  obtain ⟨more, visited⟩ := leads
  obtain ⟨first, others, rfl⟩ := List.exists_cons_of_ne_nil deliverable.notEmpty
  obtain ⟨leaf, tail, visits, here, visited⟩ := List.map_eq_cons_iff.mp visited.symm
  obtain ⟨use, found, permitted, delivered⟩ :=
    delivers leaf (visits ▸ List.mem_cons_self) (by simp [here])
  rcases SortSpec.requiredVisitOrder?_cons order with
    ⟨rfl, each⟩ | ⟨leading, item, rest, next, later, items, leads, follows, rfl⟩
  · refine iff_of_true (delivers_of_one distinctInput ?_ found permitted (here ▸ each))
      ⟨first, order⟩
    rw [JoinTree.visits_updateEach, visits, List.map_cons, List.head?_cons, delivered]
  · obtain ⟨second, tail, rfl, there, visited⟩ := List.map_eq_cons_iff.mp visited
    obtain ⟨nextUse, nextFound, nextPermitted, nextDelivered⟩ :=
      delivers second (visits ▸ by simp) (by simp [there])
    have changed : (input.updateEach (deliver catalog spec (first :: next :: later))).visits =
        leaf.setOrderIndex (some use) :: second.setOrderIndex (some nextUse) ::
          tail.map (deliver catalog spec (first :: next :: later)) := by
      rw [JoinTree.visits_updateEach, visits, List.map_cons, List.map_cons, delivered,
        nextDelivered]
    refine iff_of_false (not_delivers_of_two (joins.updateEach _) distinctInput changed
      (tiedDelivery_ordered permitted) (tiedDelivery_ordered nextPermitted) items (here ▸ leads)
      (there ▸ follows)) ?_
    rintro ⟨extent, single⟩
    rw [order] at single
    simp at single

end Candidate

/-! ## The two steps -/

/-- The input of the aggregation at the top, or directly under a sort at the top. -/
def JoinTree.groupedInput? : JoinTree → Option JoinTree
  | .aggregate _ _ input | .sort _ (.aggregate _ _ input) => some input
  | _ => none

namespace Candidate

variable {candidate : Candidate}

private theorem groupedInput?_presorted {top input : JoinTree} (change : Visit → Visit)
    (grouped : top.groupedInput? = some input) :
    ((top.setPresorted true).updateEach change).groupedInput? = some (input.updateEach change) := by
  unfold JoinTree.groupedInput? at grouped
  split at grouped
  · cases grouped
    rfl
  · cases grouped
    rfl
  · cases grouped

private theorem groupedInput?_visits {top input : JoinTree}
    (grouped : top.groupedInput? = some input) : input.visits = top.visits := by
  unfold JoinTree.groupedInput? at grouped
  split at grouped <;> cases grouped <;> rfl

theorem replaceSort_delivers_iff {input : JoinTree}
    (ordered : candidate.order = candidate.top.visitOrder)
    (distinct : candidate.top.visitOrder.Nodup) (top : candidate.top = .sort spec input)
    (joins : input.JoinsOnly) (ran : candidate.replaceSort catalog = (next, .ok true)) :
    next.top.Delivers generator? spec ↔ ∃ extent, spec.requiredVisitOrder? = some [extent] := by
  rcases replaceSort_cases distinct catalog with
    ⟨_, refused⟩ | ⟨found, below, required, sorted, deliverable, done⟩
  · rw [refused] at ran
    cases ran
  · rw [done] at ran
    cases ran
    obtain ⟨rfl, rfl⟩ := JoinTree.sort.inj (top.symm.trans sorted)
    exact deliverable.delivers_iff ordered distinct (by rw [top]; rfl) joins

theorem presortInput_delivers_iff {input : JoinTree}
    (ordered : candidate.order = candidate.top.visitOrder)
    (distinct : candidate.top.visitOrder.Nodup)
    (top : candidate.top.topGrouping? = some grouping)
    (grouped : candidate.top.groupedInput? = some input) (joins : input.JoinsOnly)
    (ran : candidate.presortInput catalog = (next, .ok true)) :
    ∃ presorted, next.top.groupedInput? = some presorted ∧
      (presorted.Delivers generator? grouping.groupBy ↔
        ∃ extent, grouping.groupBy.requiredVisitOrder? = some [extent]) := by
  rcases presortInput_cases distinct catalog with
    ⟨_, _, _, refused⟩ | ⟨found, required, _, topFound, deliverable, done⟩
  · rw [refused] at ran
    cases ran
  · rw [done] at ran
    cases ran
    obtain rfl : grouping = found := Option.some.inj (top.symm.trans topFound)
    exact ⟨_, groupedInput?_presorted _ grouped,
      deliverable.delivers_iff ordered distinct (groupedInput?_visits grouped) joins⟩

/-- Over joins of distinct extents, the rows below a sort that has been taken away, or below an
aggregation whose input is taken to be presorted, come in the order asked for exactly if this is an
order on the columns of a single extent. A second extent loses the order in some `Database`, where
neither a filter nor a unique number rules out ties. -/
theorem ordered_scans_deliver_iff (ordered : candidate.order = candidate.top.visitOrder)
    (distinct : candidate.top.visitOrder.Nodup) (catalog : Catalog)
    (generator? : Option FilterGenerator) :
    (∀ spec input next, candidate.top = .sort spec input → input.JoinsOnly →
      candidate.replaceSort catalog = (next, .ok true) →
        (next.top.Delivers generator? spec ↔
          ∃ extent, spec.requiredVisitOrder? = some [extent])) ∧
    (∀ grouping input next, candidate.top.topGrouping? = some grouping →
      candidate.top.groupedInput? = some input → input.JoinsOnly →
      candidate.presortInput catalog = (next, .ok true) →
        ∃ presorted, next.top.groupedInput? = some presorted ∧
          (presorted.Delivers generator? grouping.groupBy ↔
            ∃ extent, grouping.groupBy.requiredVisitOrder? = some [extent])) :=
  ⟨fun _ _ _ top joins ran => replaceSort_delivers_iff ordered distinct top joins ran,
    fun _ _ _ top grouped joins ran =>
      presortInput_delivers_iff ordered distinct top grouped joins ran⟩

/-- Persons by age and pets by name, each with an index for it beside the default one. -/
def petCatalog : Catalog :=
  ⟨0, ⟨[⟨"Pet", none⟩, ⟨"Person", none⟩]⟩,
    [Catalog.defaultIndex "Person", Catalog.defaultIndex "Pet",
      ⟨"PersonAge", "Person", [⟨"age", .ascending, .integer⟩]⟩,
      ⟨"PetName", "Pet", [⟨"name", .ascending, .string⟩]⟩]⟩

/-- Persons with their pets. -/
def petPairs : JoinTree :=
  .join .inner (.visit (.unplanned 0 "Person")) (.visit (.unplanned 1 "Pet")) []

/-- Persons with their pets under a sort, once the visits have been evaluated. -/
def readyPets (spec : SortSpec) : Candidate :=
  ((ofTree (.sort spec petPairs)).evaluate petCatalog).1

/-- The same candidate when it has been asked for its cost: that of sorting what two extent scans
find. -/
def sortedPets (spec : SortSpec) : Candidate :=
  { readyPets spec with knownCost? := some 132877.1237954945 }

theorem rememberCost_readyPets (logarithms : Logarithms) (spec : SortSpec) :
    (readyPets spec).rememberCost = sortedPets spec := by
  have rows : (petPairs.evaluateVisits petCatalog).1.cost = 10000 := by decide +kernel
  have asked : (readyPets spec).currentCost =
      JoinTree.sortCost (petPairs.evaluateVisits petCatalog).1.cost := rfl
  rw [rememberCost, asked, rows, logarithms.sortCost_scanned, sortedPets]

def byAgeAndName : SortSpec := ⟨[⟨.path 0 ["age"], .ascending⟩, ⟨.path 1 ["name"], .ascending⟩]⟩

theorem ordered_scans_deliver_age :
    (Logarithms → (readyPets byAge).rememberCost = sortedPets byAge) ∧
    ∃ next, (sortedPets byAge).replaceSort petCatalog = (next, .ok true) ∧
      next.top.Delivers none byAge := by
  have ran : ∃ next, (sortedPets byAge).replaceSort petCatalog = (next, .ok true) := ⟨_, rfl⟩
  obtain ⟨next, ran⟩ := ran
  have distinct : (sortedPets byAge).top.visitOrder.Nodup := by decide
  have delivers := (ordered_scans_deliver_iff rfl distinct petCatalog none).1 byAge _ next rfl
    ⟨trivial, trivial⟩ ran
  exact ⟨(rememberCost_readyPets · byAge), next, ran, delivers.mpr ⟨0, rfl⟩⟩

/-- With a second extent in the specification the sort is taken away and the order is lost. -/
theorem order_lost_by_age_and_name :
    (Logarithms → (readyPets byAgeAndName).rememberCost = sortedPets byAgeAndName) ∧
    ∃ next, (sortedPets byAgeAndName).replaceSort petCatalog = (next, .ok true) ∧
      ¬ next.top.Delivers none byAgeAndName := by
  have ran : ∃ next, (sortedPets byAgeAndName).replaceSort petCatalog = (next, .ok true) :=
    ⟨_, rfl⟩
  obtain ⟨next, ran⟩ := ran
  have distinct : (sortedPets byAgeAndName).top.visitOrder.Nodup := by decide
  have delivers : next.top.Delivers none byAgeAndName ↔ _ :=
    replaceSort_delivers_iff rfl distinct rfl ⟨trivial, trivial⟩ ran
  refine ⟨(rememberCost_readyPets · byAgeAndName), next, ran, fun delivered => ?_⟩
  obtain ⟨extent, single⟩ := delivers.mp delivered
  have required : byAgeAndName.requiredVisitOrder? = some [0, 1] := by decide
  rw [required] at single
  simp at single

end Candidate

end ExtentPlanner
