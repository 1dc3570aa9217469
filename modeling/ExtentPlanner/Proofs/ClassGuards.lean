import ExtentPlanner.Proofs.ConjunctAccounting
import ExtentPlanner.Proofs.PlannedVisits

/-! A scan returns objects of the declared class only. A visit comes by an index in four ways: a
hint, an order it is to deliver, the conditions, and as the last resort the scan of its whole
extent. Every step that sets one of them takes it from the indexes of the class and its ancestors,
and the scan of an index that other classes share filters by the declared class, whatever has
become of the assertions that the query makes itself. -/
namespace ExtentPlanner

/-- The path reads the extent through an index that is declared on the class or on one of its
ancestors. Objects of other classes in the index are filtered out. -/
structure Access.Guarded (catalog : Catalog) (typeName : String) (path : Access) : Prop where
  declared : ∀ index, path.index? = some index → index ∈ catalog.indexes ∧
    index.typeName ∈ catalog.hierarchy.ancestry typeName
  filtered : ∀ index, path.index? = some index → index.typeName ≠ typeName →
    .isType (.object path.extent) (.named typeName) ∈ path.filter.conjuncts

/-! ## The guard -/

/-- The last condition of a conjunction stands in its outermost AND chain. -/
theorem Condition.mem_conjuncts_of_last (conditions : List Condition) {last : Condition}
    (single : last.conjuncts = [last]) : last ∈ (conjunction (conditions ++ [last])).conjuncts := by
  rw [conjuncts_conjunction (by simp), List.flatMap_append]
  simp [single]

namespace Visit

variable {catalog : Catalog} {visit result : Visit} {index : Index}

theorem guard_mem_guardedFilter (visit : Visit) (conditions : List Condition)
    (foreign : index.typeName ≠ visit.typeName) :
    .isType (.object visit.extent) (.named visit.typeName) ∈
      (visit.guardedFilter index conditions).conjuncts := by
  rw [guardedFilter, if_neg foreign]
  exact Condition.mem_conjuncts_of_last conditions rfl

/-- A path that scans an index of the class or of an ancestor, with the guarded filter, is
guarded. -/
private theorem guarded_of_filter {path : Access}
    (member : index ∈ catalog.indexesFor visit.typeName) (scanned : path.index? = some index)
    (extent : path.extent = visit.extent)
    (filter : path.filter = visit.guardedFilter index left) :
    path.Guarded catalog visit.typeName := by
  obtain ⟨listed, above⟩ := Catalog.mem_indexesFor_iff.mp member
  refine ⟨fun other same => ?_, fun other same foreign => ?_⟩
  · obtain rfl := Option.some.inj (scanned.symm.trans same)
    exact ⟨listed, Hierarchy.isSubtype_iff.mp above⟩
  · obtain rfl := Option.some.inj (scanned.symm.trans same)
    rw [extent, filter]
    exact visit.guard_mem_guardedFilter left foreign

private theorem guarded_of_lookup {path : Access} (lookup : path.index? = none) :
    path.Guarded catalog visit.typeName := by
  constructor <;>
  · intro index scanned
    rw [lookup] at scanned
    cases scanned

/-! ## Where indexes come from -/

/-- Every index that the visit may be read through is declared on its class or on an ancestor. -/
structure ScansDeclared (catalog : Catalog) (visit : Visit) : Prop where
  hinted : ∀ index, visit.hintedIndex? = some index → index ∈ catalog.indexesFor visit.typeName
  ordered : ∀ use, visit.orderIndex? = some use → use.index ∈ catalog.indexesFor visit.typeName
  best : ∀ index, visit.bestIndex? = some index → index ∈ catalog.indexesFor visit.typeName
  whole : ∀ index, visit.scanIndex? = some index → index ∈ catalog.indexesFor visit.typeName

theorem scansDeclared_fresh (catalog : Catalog) (visit : Visit) :
    visit.fresh.ScansDeclared catalog where
  hinted _ impossible := by cases impossible
  ordered _ impossible := by cases impossible
  best _ impossible := by cases impossible
  whole _ impossible := by cases impossible

theorem ScansDeclared.hint (declared : visit.ScansDeclared catalog)
    (member : index ∈ catalog.indexesFor visit.typeName) :
    (visit.hint index).ScansDeclared catalog where
  hinted other same := by
    rcases Option.or_eq_some_iff.mp same with before | ⟨_, new⟩
    · exact declared.hinted other before
    · cases new
      exact member
  ordered := declared.ordered
  best := declared.best
  whole := declared.whole

theorem ScansDeclared.addConditions (declared : visit.ScansDeclared catalog)
    (conditions : List Condition) : (visit.addConditions conditions).ScansDeclared catalog :=
  ⟨declared.hinted, declared.ordered, declared.best, declared.whole⟩

theorem ScansDeclared.evaluate (declared : visit.ScansDeclared catalog)
    (ran : visit.evaluate catalog = .ok result) : result.ScansDeclared catalog := by
  have whole : ∀ index, catalog.scanIndex? visit.typeName = some index →
      index ∈ catalog.indexesFor visit.typeName := fun _ => Catalog.mem_of_scanIndex?
  cases (findsAccess_of_evaluate ran).2 with
  | hinted | reference | identity =>
    exact ⟨declared.hinted, declared.ordered, declared.best, whole⟩
  | scan => exact ⟨declared.hinted, declared.ordered, fun _ => mem_of_bestIndex?, whole⟩

theorem ScansDeclared.redirected (declared : before.ScansDeclared catalog)
    (redirected : Redirected catalog before after) : after.ScansDeclared catalog := by
  have serves := redirected.serves
  obtain ⟨_, _, rfl⟩ := redirected.same
  exact ⟨declared.hinted, fun use ordered => (serves use ordered).elim (declared.ordered use) id,
    declared.best, declared.whole⟩

/-- Whatever path the visit takes, it is guarded. -/
theorem ScansDeclared.access (declared : visit.ScansDeclared catalog)
    (ran : visit.access generator? = .ok path) :
    path.extent = visit.extent ∧ path.Guarded catalog visit.typeName := by
  rw [Visit.access] at ran
  split at ran
  case h_1 hinted =>
    cases ran
    exact ⟨rfl, guarded_of_filter (declared.hinted _ hinted) rfl rfl rfl⟩
  case h_2 ordered =>
    cases ran
    exact ⟨rfl, guarded_of_filter (declared.ordered _ ordered) rfl rfl rfl⟩
  case h_3 | h_4 =>
    cases ran
    exact ⟨rfl, guarded_of_lookup rfl⟩
  case h_5 best =>
    cases ran
    exact ⟨rfl, guarded_of_filter (declared.best _ best) rfl rfl rfl⟩
  case h_6 whole =>
    cases ran
    have member := declared.whole _ whole
    rcases visit.extentScan_cases _ generator? with ⟨code, same⟩ | same <;> rw [same] <;>
      exact ⟨rfl, guarded_of_filter member rfl rfl rfl⟩
  case h_7 => cases ran

end Visit

open Visit (Redirected)

/-! ## Steps of planning -/

namespace Candidate

variable {candidate next : Candidate} {catalog : Catalog}

theorem distributeHints_scansDeclared {hints : List IndexHint}
    (declared : ∀ visit ∈ candidate.top.visits, visit.ScansDeclared catalog)
    (ran : candidate.distributeHints catalog hints = (next, .ok ())) :
    ∀ visit ∈ next.top.visits, visit.ScansDeclared catalog := by
  induction hints generalizing candidate with
  | nil =>
    cases ran
    exact declared
  | cons hint rest ih =>
    rw [distributeHints] at ran
    split at ran
    · rename_i position index resolved
      obtain ⟨named, visit, visited, scans⟩ := resolveHint_ok resolved
      have listed : index ∈ catalog.indexes :=
        List.mem_of_mem_filter (List.mem_of_getLast? named)
      refine ih (fun changed member => ?_) ran
      rw [modifyAt, JoinTree.visits_mapVisits] at member
      obtain ⟨place, inside, rfl⟩ := List.mem_mapIdx.mp member
      have before := declared _ (List.getElem_mem inside)
      split
      · rename_i here
        subst here
        obtain ⟨_, rfl⟩ := List.getElem?_eq_some_iff.mp visited
        exact before.hint (Catalog.mem_indexesFor_iff.mpr ⟨listed, scans⟩)
      · exact before
    · cases ran

variable {hinted distributed ready : Candidate}

theorem Prepares.scansDeclared
    (prepares : Prepares catalog indexHints table tree hinted distributed ready)
    (ordered : JoinTree.JoinOrder query tree) :
    ∀ visit ∈ ready.top.visits, visit.ScansDeclared catalog := by
  have fresh : ∀ visit ∈ (ofTree tree).top.visits, visit.ScansDeclared catalog :=
    fun visit member => (ordered.fresh_visit member).1 ▸ visit.scansDeclared_fresh catalog
  have hints := distributeHints_scansDeclared fresh prepares.hints
  obtain ⟨_, placement, _, _, attached, _, _⟩ := distributeConditions_ok prepares.conditions
  intro visit member
  obtain ⟨given, inside, ran⟩ := JoinTree.forall₂_partner prepares.evaluated.visits member
  rw [(attachPostFilters_ok attached).1] at inside
  obtain ⟨before, first, place, rfl⟩ :=
    JoinTree.forall₂_partner (JoinTree.mapVisits_pointwise _ _).visits inside
  exact ((hints before first).addConditions _).evaluate ran

end Candidate

/-! ## Plans -/

namespace Planner

variable {planner : Planner} {query : Query}

/-- The access paths of a plan read the extents of the query in some join order, each guarded by the
class that the query declares for the extent. -/
theorem plan_guarded {result : Plan} (ran : planner.plan query = .ok result) :
    ∃ order, JoinTree.JoinOrder query.tree order ∧
      List.Forall₂ (fun leaf path => path.extent = leaf.extent ∧
        path.Guarded planner.catalog leaf.typeName) order.visits result.root.accesses := by
  obtain ⟨chosen, chose, ran⟩ := bind_succeeds.mp ran
  obtain ⟨root, planned, ran⟩ := bind_succeeds.mp ran
  cases ran
  obtain ⟨order, hinted, distributed, ready, ordered, prepares, redirected⟩ :=
    choose_redirected chose
  have leaves : order.visits = ready.top.visits.map Visit.fresh := by
    rw [← (prepares.isReady ordered).outline, JoinTree.visits_outline]
  have ofReady := (List.forall₂_and_left _ _).mpr
    ⟨prepares.scansDeclared ordered, redirected⟩
  refine ⟨order, ordered, ?_⟩
  rw [leaves, (announceReplan_keeps query root).2, List.forall₂_map_left_iff]
  refine JoinTree.forall₂_trans ofReady (JoinTree.plan_accesses planned) ?_
  rintro leaf visit path ⟨declared, redirected⟩ taken
  obtain ⟨extent, guarded⟩ := (declared.redirected redirected).access taken
  rw [redirected.extent] at extent
  rw [redirected.typeName] at guarded
  exact ⟨extent, guarded⟩

/-- Employees of an age who are asserted to be employees. The assertion is dropped because it
follows from the declared class, and the index that serves their age has other persons too. -/
def employeesOfAge : Query where
  tree := .visit (.unplanned 0 "Employee")
  conditions := (ConjunctTable.empty.addAll [
    .isType (.object 0) (.named "Employee"),
    .compare .equal (.path 0 ["age"]) (.parameter 0)]).1
  hints := ⟨some [], []⟩
  fetch := .none
  text := ""

theorem plan_guarded_employees : ∃ result,
    plan ⟨staffCatalog, .standard, none⟩ employeesOfAge = .ok result ∧
      ∃ path ∈ result.root.accesses, path.index?.map (·.typeName) = some "Person" ∧
        .isType (.object 0) (.named "Employee") ∈ path.filter.conjuncts := by
  have planned : ∃ result path, plan ⟨staffCatalog, .standard, none⟩ employeesOfAge = .ok result ∧
      result.root.accesses = [path] ∧ path.index?.map (·.typeName) = some "Person" :=
    ⟨_, _, rfl, rfl, rfl⟩
  obtain ⟨result, path, ran, only, scanned⟩ := planned
  obtain ⟨order, ordered, guarded⟩ := plan_guarded ran
  have listed : path ∈ result.root.accesses := only ▸ List.mem_singleton_self path
  obtain ⟨leaf, read, extent, guard⟩ := JoinTree.forall₂_partner guarded listed
  obtain ⟨_, own, member, fresh⟩ := ordered.fresh_visit read
  obtain rfl := List.mem_singleton.mp member
  subst fresh
  obtain ⟨index, isIndex, typeName⟩ := Option.map_eq_some_iff.mp scanned
  have foreign : index.typeName ≠ "Employee" := by
    rw [typeName]
    decide
  have filtered := guard.filtered index isIndex foreign
  rw [extent] at filtered
  exact ⟨result, ran, path, listed, scanned, filtered⟩

end Planner

end ExtentPlanner
