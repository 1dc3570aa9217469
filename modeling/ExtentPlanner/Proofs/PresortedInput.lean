import ExtentPlanner.Proofs.PlanningRun

/-! Aggregations that are told that their input is presorted. The planner tells so when it has the
visits deliver the grouping, and it may afterwards have them deliver the order of a sort above the
aggregation. The second step does not look at what the first one has set, so an order index of the
grouping survives exactly where the sort, if it is taken away, wants the same index or none. -/
namespace ExtentPlanner

namespace JoinTree

/-- No aggregation is told that its input is presorted. -/
def Unflagged (tree : JoinTree) : Prop := ∀ entry ∈ tree.aggregations, entry.2 = false

/-- Where the aggregation near the top is. -/
theorem topGrouping?_some {top : JoinTree} (found : top.topGrouping? = some grouping) :
    (∃ presorted input, top = .aggregate grouping presorted input) ∨
      ∃ spec presorted input, top = .sort spec (.aggregate grouping presorted input) := by
  unfold topGrouping? at found
  split at found
  · cases found
    exact .inl ⟨_, _, rfl⟩
  · cases found
    exact .inr ⟨_, _, _, rfl⟩
  · cases found

private theorem Unflagged.setPresorted {tree : JoinTree} (unflagged : tree.Unflagged) :
    (tree.setPresorted false).Unflagged := by
  unfold JoinTree.setPresorted
  split
  · exact List.forall_mem_cons.mpr ⟨rfl, fun entry below =>
      unflagged entry (List.mem_cons_of_mem _ below)⟩
  · exact List.forall_mem_cons.mpr ⟨rfl, fun entry below =>
      unflagged entry (List.mem_cons_of_mem _ below)⟩
  · exact unflagged

/-- After flagging the aggregation near the top, it is the only one that is flagged. -/
private theorem Unflagged.flagged {tree : JoinTree} (unflagged : tree.Unflagged)
    (top : tree.topGrouping? = some own)
    (member : (grouping, true) ∈ (tree.setPresorted true).aggregations) : grouping = own := by
  rcases topGrouping?_some top with ⟨presorted, input, rfl⟩ | ⟨spec, presorted, input, rfl⟩
  all_goals
    rcases List.mem_cons.mp member with same | below
    · exact (Prod.mk.inj same).1
    · cases unflagged _ (List.mem_cons_of_mem _ below)

theorem outline_sort_iff (tree : JoinTree) (spec : SortSpec) :
    (∃ input, tree.outline = .sort spec input) ↔ ∃ input, tree = .sort spec input := by
  cases tree <;> simp [outline]

theorem updateEach_sort_iff (tree : JoinTree) (change : Visit → Visit) (spec : SortSpec) :
    (∃ input, tree.updateEach change = .sort spec input) ↔ ∃ input, tree = .sort spec input := by
  cases tree <;> simp

theorem setPresorted_sort_iff (tree : JoinTree) (presorted : Bool) (spec : SortSpec) :
    (∃ input, tree.setPresorted presorted = .sort spec input) ↔
      ∃ input, tree = .sort spec input := by
  unfold setPresorted
  split <;> simp

theorem aggregations_updateEach (tree : JoinTree) (change : Visit → Visit) :
    (tree.updateEach change).aggregations = tree.aggregations :=
  (tree.updateEach_pointwise change).aggregations

end JoinTree

namespace Candidate

variable {candidate next : Candidate} {catalog : Catalog}

/-- Avoiding a sort flags no aggregation. -/
private theorem unflagged_replaceSort (distinct : candidate.top.visitOrder.Nodup)
    (unflagged : candidate.top.Unflagged)
    (ran : candidate.replaceSort catalog = (next, .ok eliminated)) : next.top.Unflagged := by
  rcases replaceSort_cases distinct catalog with ⟨_, refused⟩ | ⟨spec, input, _, sorted, _, done⟩
  · rw [refused] at ran
    cases ran
    exact unflagged
  · rw [done] at ran
    cases ran
    rw [sorted] at unflagged
    intro entry member
    rw [JoinTree.aggregations_updateEach] at member
    exact unflagged entry member

end Candidate

namespace Planner

variable {planner : Planner} {query : Query} {ready candidate : Candidate}

/-- How the visits of a finished candidate have come to deliver a grouping: last of all, or before
they delivered the order of a sort that stood above the aggregation. -/
inductive Presorted (catalog : Catalog) (grouping : Grouping) (required : List Nat)
    (before after : JoinTree) : Prop where
  | last (delivered : after = (before.setPresorted true).updateEach
      (Candidate.deliver catalog grouping.groupBy required))
  | beforeSort (shape : before = .sort spec (.aggregate grouping presorted below))
    (order : spec.requiredVisitOrder? = some sorted)
    (delivered : after = .aggregate grouping true (below.updateEach fun visit =>
      Candidate.deliver catalog spec sorted
        (Candidate.deliver catalog grouping.groupBy required visit)))

/-- A presorted aggregation of a finished candidate has visits that could deliver its grouping and
that have been told to. -/
theorem Finished.presorted (distinct : ready.top.visitOrder.Nodup)
    (unflagged : ready.top.Unflagged) (finished : Finished planner ready candidate)
    (flagged : (grouping, true) ∈ candidate.top.aggregations) :
    ∃ required, ready.Deliverable planner.catalog grouping.groupBy required ∧
      Presorted planner.catalog grouping required ready.top candidate.top := by
  cases finished with
  | unordered => cases unflagged _ flagged
  | ordered presort replaced =>
    have distinctNext := (Candidate.presortInput_kept distinct presort).1.visitOrder ▸ distinct
    rcases Candidate.presortInput_cases distinct planner.catalog with
      ⟨top, _, same, refused⟩ | ⟨own, required, _, top, deliverable, done⟩
    · rw [refused] at presort
      cases presort
      have stillUnflagged : top.Unflagged := by
        rcases same with rfl | rfl
        · exact unflagged
        · exact unflagged.setPresorted
      cases Candidate.unflagged_replaceSort distinctNext stillUnflagged replaced _ flagged
    · rw [done] at presort
      cases presort
      rcases Candidate.replaceSort_cases distinctNext planner.catalog with
        ⟨_, refused⟩ | ⟨spec, input, sorted, sort, deliverableSort, done⟩
      · rw [refused] at replaced
        cases replaced
        rw [Candidate.rememberCost] at flagged
        dsimp only at flagged
        rw [JoinTree.aggregations_updateEach] at flagged
        obtain rfl := unflagged.flagged top flagged
        exact ⟨required, deliverable, .last rfl⟩
      · rw [done] at replaced
        cases replaced
        rcases JoinTree.topGrouping?_some top with
          ⟨presorted, below, shape⟩ | ⟨outer, presorted, below, shape⟩
        · rw [shape, JoinTree.setPresorted, JoinTree.updateEach_aggregate] at sort
          cases sort
        · rw [shape, JoinTree.setPresorted, JoinTree.updateEach_sort,
            JoinTree.updateEach_aggregate] at sort
          cases sort
          rw [Candidate.rememberCost] at flagged
          dsimp only at flagged
          rw [JoinTree.aggregations_updateEach] at flagged
          have unflaggedBelow : ∀ entry ∈ below.aggregations, entry.2 = false := fun entry member =>
            unflagged entry (by rw [shape]; exact List.mem_cons_of_mem _ member)
          obtain rfl : grouping = own := by
            rcases List.mem_cons.mp flagged with same | inside
            · exact (Prod.mk.inj same).1
            · rw [JoinTree.aggregations_updateEach] at inside
              cases unflaggedBelow _ inside
          refine ⟨required, deliverable, .beforeSort shape deliverableSort.order ?_⟩
          rw [Candidate.rememberCost]
          dsimp only
          rw [JoinTree.updateEach_aggregate, JoinTree.updateEach_updateEach]

/-- Whether a sort of the query has been replaced by scans although some visit that the grouping is
also about needs another index for it. -/
def Overwritten (catalog : Catalog) (tree chosen : JoinTree) (groupBy : SortSpec) : Prop :=
  ∃ spec input sorted grouped, tree = .sort spec input ∧
    (∀ spec input, chosen ≠ .sort spec input) ∧
    spec.requiredVisitOrder? = some sorted ∧ groupBy.requiredVisitOrder? = some grouped ∧
    ∃ visit ∈ chosen.visits, visit.extent ∈ sorted ∧ visit.extent ∈ grouped ∧
      spec.index? catalog visit.extent visit.typeName ≠
        groupBy.index? catalog visit.extent visit.typeName

/-- A grouping that is delivered last is delivered. -/
private theorem survives_last (catalog : Catalog) (groupBy : SortSpec) (required : List Nat)
    (last : Option Nat) (leaves : List Visit) :
    ∀ visit ∈ leaves.map fun visit =>
        Candidate.markLast last (Candidate.deliver catalog groupBy required visit),
      visit.extent ∈ required →
        visit.orderIndex? = groupBy.index? catalog visit.extent visit.typeName := by
  intro visit member inside
  obtain ⟨own, _, rfl⟩ := List.mem_map.mp member
  rw [Candidate.markLast_extent, Candidate.deliver_extent] at inside
  simp [inside]

/-- A grouping that is delivered before a sort survives in the visits that both are about exactly if
both want the same indexes there. -/
private theorem survives_sort_iff {catalog : Catalog} {spec groupBy : SortSpec}
    {required sorted : List Nat} {leaves : List Visit} {change : Visit → Visit} (last : Option Nat)
    (changes : change = fun visit => Candidate.markLast last (Candidate.deliver catalog spec sorted
      (Candidate.deliver catalog groupBy required visit))) :
    (∀ visit ∈ leaves.map change, visit.extent ∈ required →
      visit.orderIndex? = groupBy.index? catalog visit.extent visit.typeName) ↔
    ¬ ∃ visit ∈ leaves.map change, visit.extent ∈ sorted ∧ visit.extent ∈ required ∧
      spec.index? catalog visit.extent visit.typeName ≠
        groupBy.index? catalog visit.extent visit.typeName := by
  have extent : ∀ visit, (change visit).extent = visit.extent := by simp [changes]
  have typeName : ∀ visit, (change visit).typeName = visit.typeName := by simp [changes]
  have orderIndex : ∀ visit, visit.extent ∈ required → (change visit).orderIndex? =
      if visit.extent ∈ sorted then spec.index? catalog visit.extent visit.typeName
      else groupBy.index? catalog visit.extent visit.typeName := by
    intro visit inside
    simp [changes, inside]
  constructor
  · rintro each ⟨_, member, inSorted, inside, differs⟩
    have same := each _ member inside
    obtain ⟨visit, _, rfl⟩ := List.mem_map.mp member
    rw [extent] at inSorted inside
    rw [orderIndex visit inside, if_pos inSorted, extent, typeName] at same
    rw [extent, typeName] at differs
    exact differs same
  · intro never _ member inside
    obtain ⟨visit, listed, rfl⟩ := List.mem_map.mp member
    by_cases inSorted : visit.extent ∈ sorted
    · rw [orderIndex visit (extent visit ▸ inside), if_pos inSorted, extent, typeName]
      by_contra differs
      refine never ⟨_, member, extent visit ▸ inSorted, inside, ?_⟩
      rwa [extent, typeName]
    · rw [orderIndex visit (extent visit ▸ inside), if_neg inSorted, extent, typeName]

/-- With a last visit marked, a grouping is still delivered unless it has been overwritten. -/
theorem Presorted.survives_iff {catalog : Catalog} {before after : JoinTree}
    (presorted : Presorted catalog grouping required before after)
    (order : grouping.groupBy.requiredVisitOrder? = some required)
    (sorts : ∀ spec, (∃ input, tree = .sort spec input) ↔ ∃ input, before = .sort spec input)
    (last : Option Nat) :
    (∀ visit ∈ (after.updateEach (Candidate.markLast last)).visits, visit.extent ∈ required →
      visit.orderIndex? = grouping.groupBy.index? catalog visit.extent visit.typeName) ↔
    ¬ Overwritten catalog tree (after.updateEach (Candidate.markLast last)) grouping.groupBy := by
  cases presorted with
  | last delivered =>
    refine iff_of_true ?_ ?_
    · rw [delivered, JoinTree.updateEach_updateEach, JoinTree.visits_updateEach]
      exact survives_last catalog grouping.groupBy required last _
    · rintro ⟨spec, input, _, _, sort, noSort, _⟩
      obtain ⟨input, still⟩ := (JoinTree.updateEach_sort_iff _ (Candidate.markLast last) spec).mpr
        ((JoinTree.updateEach_sort_iff _ _ spec).mpr
          ((JoinTree.setPresorted_sort_iff _ true spec).mpr ((sorts spec).mp ⟨input, sort⟩)))
      rw [delivered] at noSort
      exact noSort _ _ still
  | @beforeSort spec _ below sorted shape sortOrder delivered =>
    have leaves : (after.updateEach (Candidate.markLast last)).visits =
        below.visits.map fun visit => Candidate.markLast last (Candidate.deliver catalog spec sorted
          (Candidate.deliver catalog grouping.groupBy required visit)) := by
      rw [delivered, JoinTree.updateEach_aggregate, JoinTree.updateEach_updateEach]
      exact JoinTree.visits_updateEach _ _
    obtain ⟨input, sort⟩ := (sorts spec).mpr ⟨_, shape⟩
    rw [leaves, survives_sort_iff last rfl, not_iff_not, ← leaves]
    constructor
    · intro shared
      refine ⟨spec, input, sorted, required, sort, ?_, sortOrder, order, shared⟩
      intro outer outerInput same
      rw [delivered, JoinTree.updateEach_aggregate] at same
      cases same
    · rintro ⟨own, _, ownSorted, grouped, ownSort, _, ownOrder, groupOrder, shared⟩
      rw [sort] at ownSort
      cases ownSort
      cases sortOrder.symm.trans ownOrder
      cases order.symm.trans groupOrder
      exact shared

/-- An aggregation of the chosen candidate is told that its input is presorted only if the grouping
can be delivered by the visits that come first. These visits still do so unless the sort above the
aggregation has been taken away and wants other indexes. -/
theorem presorted_scans_iff (distinct : query.tree.visitOrder.Nodup)
    (ran : planner.choose query = .ok chosen) :
    ∀ grouping, (grouping, true) ∈ chosen.top.aggregations →
      ∃ required, grouping.groupBy.requiredVisitOrder? = some required ∧ required ≠ [] ∧
        required <+: chosen.order ∧
        (∀ visit ∈ chosen.top.visits, visit.extent ∈ required →
          (grouping.groupBy.index? planner.catalog visit.extent visit.typeName).isSome) ∧
        ((∀ visit ∈ chosen.top.visits, visit.extent ∈ required → visit.orderIndex? =
            grouping.groupBy.index? planner.catalog visit.extent visit.typeName) ↔
          ¬ Overwritten planner.catalog query.tree chosen.top grouping.groupBy) := by
  obtain ⟨tree, ready, finished, last, ordered, isReady, distinctReady, finishes, kept, sameOrder,
    marked⟩ := choose_marked distinct ran
  have unflagged : ready.top.Unflagged := by
    intro entry member
    rw [← JoinTree.outline_aggregations, isReady.outline] at member
    exact ordered.not_presorted member
  intro grouping flagged
  rw [marked, JoinTree.aggregations_updateEach] at flagged
  obtain ⟨required, deliverable, presorted⟩ :=
    finishes.presorted distinctReady unflagged flagged
  refine ⟨required, deliverable.order, deliverable.notEmpty, ?_, ?_, ?_⟩
  · rw [sameOrder]
    exact deliverable.first
  · intro visit member inside
    obtain ⟨own, listed, same⟩ := kept.partner member
    have extent : own.extent = visit.extent := congrArg (·.extent) same
    have typeName : own.typeName = visit.typeName := congrArg (·.typeName) same
    obtain ⟨use, found, _⟩ := deliverable.served own listed (extent ▸ inside)
    rw [← extent, ← typeName, found, Option.isSome_some]
  · rw [marked]
    refine presorted.survives_iff deliverable.order (fun spec => ?_) last
    rw [← ordered.sort_iff, ← isReady.outline, JoinTree.outline_sort_iff]

/-- Persons by age and by city, each with an index for it beside the default one. -/
def cityCatalog : Catalog :=
  ⟨0, ⟨[⟨"Pet", none⟩, ⟨"Person", none⟩]⟩,
    [Catalog.defaultIndex "Person", Catalog.defaultIndex "Pet",
      ⟨"PersonAge", "Person", [⟨"age", .ascending, .integer⟩]⟩,
      ⟨"PersonCity", "Person", [⟨"city", .ascending, .string⟩]⟩]⟩

def cityPlanner : Planner := ⟨cityCatalog, .standard, none⟩

def perCity : Grouping := ⟨2, ⟨[⟨.path 0 ["city"], .ascending⟩]⟩, [], .truth .isTrue⟩

/-- Persons, some with pets. -/
def personsAndPets : JoinTree :=
  .join .leftOuter (.visit (.unplanned 0 "Person")) (.visit (.unplanned 1 "Pet")) []

/-- Persons, some with pets, per city. -/
def perCityQuery : Query where
  tree := .aggregate perCity false personsAndPets
  conditions := .empty
  hints := ⟨some [], []⟩
  fetch := .none
  text := ""

/-- The only candidate of the query when its visits have been evaluated. -/
def perCityReady : Candidate :=
  (((Candidate.ofTree perCityQuery.tree.unplanned).distributeConditions .empty).1.evaluate
    cityCatalog).1

private theorem perCity_chosen {last : Candidate}
    (presort : perCityReady.presortInput cityCatalog = (candidate, .ok presorted))
    (sorted : candidate.replaceSort cityCatalog = (candidate, .ok false))
    (marked : candidate.rememberCost.markLastVisit = .ok last) :
    cityPlanner.choose perCityQuery = .ok last.rememberCost := by
  have planned : cityPlanner.planCandidate perCityQuery perCityQuery.tree.unplanned =
      .ok candidate.rememberCost := by
    have steps : cityPlanner.planCandidate perCityQuery perCityQuery.tree.unplanned =
        (do
          let presorted := perCityReady.presortInput cityCatalog
          let _ ← presorted.2
          let eliminated := presorted.1.replaceSort cityCatalog
          let _ ← eliminated.2
          .ok eliminated.1.rememberCost) := rfl
    rw [steps, presort]
    dsimp only
    rw [sorted]
    rfl
  have cheapest : cityPlanner.cheapestFrom perCityQuery none [perCityQuery.tree.unplanned] =
      .ok (some candidate.rememberCost) := bind_succeeds.mpr ⟨_, planned, rfl⟩
  exact bind_succeeds.mpr ⟨_, rfl, bind_succeeds.mpr ⟨(), rfl, bind_succeeds.mpr ⟨_, rfl,
    bind_succeeds.mpr ⟨_, cheapest, bind_succeeds.mpr ⟨last, marked, rfl⟩⟩⟩⟩⟩

/-- The query is planned, and if presorting pays the persons are read by city. -/
theorem presorted_scans_per_city :
    ∃ chosen, cityPlanner.choose perCityQuery = .ok chosen ∧
      ((∃ next, perCityReady.presortInput cityCatalog = (next, .ok true)) →
        (perCity, true) ∈ chosen.top.aggregations ∧
          ∀ visit ∈ chosen.top.visits, visit.extent = 0 → visit.orderIndex? =
            perCity.groupBy.index? cityCatalog visit.extent visit.typeName) := by
  have distinct : perCityReady.top.visitOrder.Nodup := by decide
  rcases Candidate.presortInput_cases distinct cityCatalog with
    ⟨top, _, rfl | rfl, refused⟩ | ⟨grouping, required, _, same, deliverable, done⟩
  · exact ⟨_, perCity_chosen refused rfl rfl, fun ⟨_, paid⟩ => by cases refused.symm.trans paid⟩
  · exact ⟨_, perCity_chosen refused rfl rfl, fun ⟨_, paid⟩ => by cases refused.symm.trans paid⟩
  · cases same
    cases deliverable.order
    have ran := perCity_chosen done rfl rfl
    refine ⟨_, ran, fun _ => ⟨List.mem_cons_self, fun visit member person => ?_⟩⟩
    obtain ⟨required, order, _, _, _, survives⟩ :=
      presorted_scans_iff (by decide) ran perCity List.mem_cons_self
    cases order
    refine survives.mpr ?_ visit member (person ▸ List.mem_cons_self)
    rintro ⟨_, _, _, _, sort, _⟩
    cases sort

end Planner

/-! ## Another order above the grouping -/

namespace Candidate

open Planner (cityCatalog perCity personsAndPets)

/-- Persons, some with pets, per city and then in the order of `spec`, once the visits have been
evaluated. -/
def citiesReady (spec : SortSpec) : Candidate :=
  ((ofTree (.sort spec (.aggregate perCity false personsAndPets))).evaluate cityCatalog).1

/-- The same candidate with its persons read by city, and the cost that it then has. -/
def citiesPresorted (spec : SortSpec) : Candidate :=
  { ((citiesReady spec).setPresorted true).delivering cityCatalog perCity.groupBy [0] with
    knownCost? := some 1528.7712379549448 }

private theorem citiesReady_distinct (spec : SortSpec) :
    (citiesReady spec).top.visitOrder.Nodup := by
  have order : (citiesReady spec).top.visitOrder = [0, 1] := rfl
  rw [order]
  decide

/-- Presorting leads to no other candidate than this one, the number of its cost apart. -/
theorem presortInput_citiesReady_forgetCost {spec : SortSpec}
    (presort : (citiesReady spec).presortInput cityCatalog = (next, .ok true)) :
    next.forgetCost = (citiesPresorted spec).forgetCost := by
  rcases presortInput_cases (citiesReady_distinct spec) cityCatalog with
    ⟨_, _, _, refused⟩ | ⟨grouping, required, _, grouped, deliverable, done⟩
  · cases refused.symm.trans presort
  · cases grouped
    cases deliverable.order
    rw [done] at presort
    cases presort
    rfl

/-- Presorting pays: one scan of two becomes an index scan, and a sort is saved. -/
theorem presortInput_citiesReady (logarithms : Logarithms) (spec : SortSpec) :
    (citiesReady spec).presortInput cityCatalog = (citiesPresorted spec, .ok true) := by
  let input := (personsAndPets.evaluateVisits cityCatalog).1
  let delivering := (citiesReady spec).delivering cityCatalog perCity.groupBy [0]
  have before : (citiesReady spec).currentCost = 2261533.198730403 := by
    have rows : input.cost = 10000 := by decide +kernel
    have asked : (citiesReady spec).currentCost =
        JoinTree.sortCost (JoinTree.sortCost input.cost) := rfl
    rw [asked, rows, logarithms.sortCost_scanned, logarithms.sortCost_sorted]
  have after : (delivering.setPresorted true).currentCost = 1528.7712379549448 := by
    have rows : (input.updateEach (deliver cityCatalog perCity.groupBy [0])).cost = 200 := by
      decide +kernel
    have asked : (delivering.setPresorted true).currentCost = JoinTree.sortCost
        (input.updateEach (deliver cityCatalog perCity.groupBy [0])).cost := rfl
    rw [asked, rows, logarithms.sortCost_indexed]
  have cheaper : (delivering.setPresorted true).currentCost < (citiesReady spec).currentCost := by
    rw [before, after]
    decide
  have found : ∃ use, (citiesReady spec).orderAssignments? cityCatalog perCity.groupBy =
      some [⟨0, use⟩] := ⟨_, rfl⟩
  obtain ⟨use, found⟩ := found
  have remembered : (delivering.setPresorted true).rememberCost = citiesPresorted spec := by
    rw [rememberCost, after]
    rfl
  rw [presortInput_of_cheaper (citiesReady_distinct spec) rfl found cheaper]
  exact Prod.ext remembered rfl

end Candidate

namespace Planner

open Candidate (Logarithms byAge citiesReady citiesPresorted)

/-- Presorting leads to this candidate, with the number of its cost once the logarithms are given.
Taking the sort away then replaces the index of the grouping, and the aggregation is not told. -/
theorem presorted_scans_lost_by_age :
    (∀ next, (citiesReady byAge).presortInput cityCatalog = (next, .ok true) →
      next.forgetCost = (citiesPresorted byAge).forgetCost) ∧
    (Logarithms →
      (citiesReady byAge).presortInput cityCatalog = (citiesPresorted byAge, .ok true)) ∧
    ∃ next visit, (citiesPresorted byAge).replaceSort cityCatalog = (next, .ok true) ∧
      (perCity, true) ∈ next.top.aggregations ∧ visit ∈ next.top.visits ∧ visit.extent = 0 ∧
        visit.orderIndex? ≠ perCity.groupBy.index? cityCatalog 0 "Person" :=
  ⟨fun _ => Candidate.presortInput_citiesReady_forgetCost,
    (Candidate.presortInput_citiesReady · byAge),
    _, _, rfl, List.mem_cons_self, List.mem_cons_self, rfl, by decide⟩

end Planner

end ExtentPlanner
