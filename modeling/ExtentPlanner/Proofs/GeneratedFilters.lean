import ExtentPlanner.Proofs.ConjunctAccounting
import ExtentPlanner.Proofs.PlannedVisits

/-! Generated filter code decides how a whole extent is scanned and nothing else. A scan that runs
generated code keeps every condition in its filter, while the scan that takes its place looks for
bounds among the conditions once more. The two agree because a visit is left with a scan of its
whole extent only if no index is bounded at all, the index of that scan included. -/
namespace ExtentPlanner

/-! ## Generic plans -/

/-- The ranges of a scan without bounds. -/
def Index.fullRanges (index : Index) : List ColumnRange :=
  index.columns.map fun column => ⟨column.path, column.columnType, []⟩

/-- The access path without generated code: a scan that runs some becomes a forward scan of the same
index, without bounds and with the same filter. -/
def Access.generic : Access → Access
  | .fullScan extent index filter _ innermost =>
    .indexScan extent index .ascending index.fullRanges filter innermost
  | path => path

/-- The plan with other access paths. -/
def PlanNode.mapAccess (change : Access → Access) : PlanNode → PlanNode
  | access id fetch path => access id fetch (change path)
  | join id fetch type left right post =>
    join id fetch type (left.mapAccess change) (right.mapAccess change) post
  | sort id fetch spec input => sort id fetch spec (input.mapAccess change)
  | aggregate id fetch grouping presorted input =>
    aggregate id fetch grouping presorted (input.mapAccess change)
  | replan id fetch parameters query input =>
    replan id fetch parameters query (input.mapAccess change)

def Plan.mapAccess (change : Access → Access) (plan : Plan) : Plan :=
  { plan with root := plan.root.mapAccess change }

/-- The plan without generated code. -/
def Plan.generic (plan : Plan) : Plan := plan.mapAccess Access.generic

namespace PlanNode

theorem mapAccess_self (node : PlanNode) : node.mapAccess (fun path => path) = node := by
  induction node with
  | access id fetch path => rfl
  | join id fetch type left right post lefts rights => rw [mapAccess, lefts, rights]
  | sort id fetch spec input inputs => rw [mapAccess, inputs]
  | aggregate id fetch grouping presorted input inputs => rw [mapAccess, inputs]
  | replan id fetch parameters query input inputs => rw [mapAccess, inputs]

/-- Numbers do not depend on access paths. -/
theorem numberedFrom_mapAccess (change : Access → Access) (node : PlanNode) (next : Nat) :
    (node.mapAccess change).numberedFrom next =
      ((node.numberedFrom next).1.mapAccess change, (node.numberedFrom next).2) := by
  induction node generalizing next with
  | access id fetch path => rfl
  | join id fetch type left right post lefts rights => simp [mapAccess, numberedFrom, lefts, rights]
  | sort id fetch spec input inputs => simp [mapAccess, numberedFrom, inputs]
  | aggregate id fetch grouping presorted input inputs => simp [mapAccess, numberedFrom, inputs]
  | replan id fetch parameters query input inputs => simp [mapAccess, numberedFrom, inputs]

theorem numbered_mapAccess (change : Access → Access) (node : PlanNode) :
    (node.mapAccess change).numbered = node.numbered.mapAccess change :=
  congrArg Prod.fst (node.numberedFrom_mapAccess change 0)

end PlanNode

/-! ## Visits that scan their whole extent -/

namespace Visit

variable {visit : Visit} {catalog : Catalog}

/-- If nothing but a scan of the whole extent is left, no comparison bounds the index of that
scan. -/
def ScansUnbounded (visit : Visit) : Prop :=
  visit.hintedIndex? = none → visit.reference? = none → visit.identity? = none →
    visit.bestIndex? = none → ∀ index, visit.scanIndex? = some index →
      (index.coverage visit.comparisons).columns = 0

theorem scansUnbounded_of_evaluate (ran : visit.evaluate catalog = .ok result) :
    result.ScansUnbounded := by
  cases (findsAccess_of_evaluate ran).2 with
  | hinted hinted =>
    intro unhinted
    rw [unhinted] at hinted
    cases hinted
  | reference => rintro _ ⟨⟩
  | identity => rintro _ _ ⟨⟩
  | scan =>
    intro _ _ _ unbounded index whole
    have listed : index ∈ catalog.indexesFor visit.typeName := Catalog.mem_of_scanIndex? whole
    have comparisons := comparisons_simplifyAssertions visit catalog.hierarchy
    exact (congrArg (fun given => (index.coverage given).columns) comparisons).trans
      (unbounded_of_bestIndex? unbounded listed)

theorem ScansUnbounded.redirected (unbounded : before.ScansUnbounded)
    (redirected : Redirected catalog before after) : after.ScansUnbounded := by
  obtain ⟨_, _, rfl⟩ := redirected.same
  exact unbounded

/-- The generic form of a scan that runs generated code is the scan without a generator. -/
theorem extentScan_generic (index : Index) (generator? : Option FilterGenerator)
    (unbounded : (index.coverage visit.comparisons).columns = 0) :
    (visit.extentScan index generator?).generic = visit.extentScan index none := by
  have without : visit.extentScan index none =
      visit.indexScan index .ascending visit.conditions := by
    simp only [extentScan, Option.bind_none, ite_self]
  rw [without]
  rcases visit.extentScan_cases index generator? with ⟨code, generated⟩ | fallback
  · have bare : (index.coverage (visit.conditions.filterMap
        (·.columnComparison? visit.extent))).columns = 0 := unbounded
    rw [generated, Access.generic, indexScan, bare, columnRanges_unbounded]
    rfl
  · rw [fallback]
    rfl

theorem access_generic (unbounded : visit.ScansUnbounded)
    (generator? : Option FilterGenerator) :
    (visit.access generator?).map Access.generic = visit.access none := by
  unfold access
  split
  -- Generated code is asked for only when every other way to the extent is closed.
  case h_6 hinted _ looked identified best whole =>
    exact congrArg Except.ok
      (extentScan_generic _ generator? (unbounded hinted looked identified best _ whole))
  all_goals rfl

/-- A generator that can express no filter is as good as none. -/
theorem access_of_generatesNothing {generator? : Option FilterGenerator}
    (nothing : ∀ generate, generator? = some generate → ∀ extent typeName filter,
      generate extent typeName filter = none) :
    visit.access generator? = visit.access none := by
  have same : ∀ index, visit.extentScan index generator? = visit.extentScan index none := by
    intro index
    cases generator? with
    | none => rfl
    | some generate =>
      simp only [extentScan, Option.bind_some, nothing generate rfl, Option.bind_none]
  simp only [access, same]

end Visit

/-! ## Plans -/

/-- A change of access paths that leads from one generator to another for every visit does so for
the whole tree. -/
theorem JoinTree.plan_mapAccess {tree : JoinTree} {generator? other? : Option FilterGenerator}
    {change : Access → Access} (fetch : Fetch)
    (each : ∀ visit ∈ tree.visits, (visit.access generator?).map change = visit.access other?) :
    (tree.plan generator? fetch).map (PlanNode.mapAccess change) = tree.plan other? fetch := by
  induction tree generalizing fetch with
  | visit leaf =>
    rw [plan, plan, ← each leaf List.mem_cons_self]
    cases leaf.access generator? <;> rfl
  | join kind left right post lefts rights =>
    rw [plan, plan, ← lefts .none fun visit member => each visit (List.mem_append_left _ member),
      ← rights .none fun visit member => each visit (List.mem_append_right _ member)]
    cases left.plan generator? .none with
    | error failure => rfl
    | ok outer => cases right.plan generator? .none <;> rfl
  | sort spec input inputs | aggregate grouping presorted input inputs =>
    rw [plan, plan, ← inputs .none each]
    cases input.plan generator? .none <;> rfl

namespace Planner

/-- The same planner without generated code. -/
def withoutGenerator (planner : Planner) : Planner := { planner with generator? := none }

/-- No filter can be expressed in generated code. -/
def GeneratesNothing (planner : Planner) : Prop :=
  ∀ generate, planner.generator? = some generate → ∀ extent typeName filter,
    generate extent typeName filter = none

variable {planner : Planner} {query : Query}

theorem allowedGenerator?_withoutGenerator (planner : Planner) :
    planner.withoutGenerator.allowedGenerator? = none := by
  rw [allowedGenerator?]
  split <;> rfl

theorem cheapestFrom_withoutGenerator (planner : Planner) (query : Query)
    (best? : Option Candidate) (trees : List JoinTree) :
    planner.withoutGenerator.cheapestFrom query best? trees =
      planner.cheapestFrom query best? trees := by
  induction trees generalizing best? with
  | nil => rfl
  | cons tree rest ih =>
    have same : planner.withoutGenerator.planCandidate query tree =
        planner.planCandidate query tree := rfl
    rw [cheapestFrom, cheapestFrom, same]
    cases planner.planCandidate query tree with
    | error failure => rfl
    | ok candidate => exact ih _

/-- Generated code has no influence on the search for the cheapest candidate. -/
theorem choose_withoutGenerator (planner : Planner) (query : Query) :
    planner.withoutGenerator.choose query = planner.choose query := by
  have sameTrees : planner.withoutGenerator.joinTrees query = planner.joinTrees query := rfl
  simp only [choose, sameTrees, cheapestFrom_withoutGenerator]

theorem announceReplan_mapAccess (query : Query) (change : Access → Access) (root : PlanNode) :
    announceReplan query (root.mapAccess change) =
      (announceReplan query root).mapAccess change := by
  unfold announceReplan
  dsimp only
  split <;> rfl

theorem planChosen_mapAccess {candidate : Candidate} {change : Access → Access}
    (each : ∀ visit ∈ candidate.top.visits,
      (visit.access planner.allowedGenerator?).map change = visit.access none) :
    (planner.planChosen query candidate).map (Plan.mapAccess change) =
      planner.withoutGenerator.planChosen query candidate := by
  rw [planChosen, planChosen, allowedGenerator?_withoutGenerator,
    ← JoinTree.plan_mapAccess query.fetch each]
  cases candidate.top.plan planner.allowedGenerator? query.fetch with
  | error failure => rfl
  | ok root =>
    show Except.ok (Plan.mapAccess change _) = Except.ok _
    rw [Plan.mapAccess, announceReplan_mapAccess, PlanNode.numbered_mapAccess]

/-- The visits of the chosen candidate scan whole extents without bounds. -/
theorem choose_scansUnbounded (ran : planner.choose query = .ok chosen) :
    ∀ visit ∈ chosen.top.visits, visit.ScansUnbounded := by
  obtain ⟨_, _, _, _, _, prepares, later⟩ := choose_redirected ran
  intro visit member
  obtain ⟨before, inside, redirected⟩ := JoinTree.forall₂_partner later member
  obtain ⟨_, _, evaluated⟩ := JoinTree.forall₂_partner prepares.evaluated.visits inside
  exact (Visit.scansUnbounded_of_evaluate evaluated).redirected redirected

theorem plan_mapAccess {change : Access → Access}
    (each : ∀ chosen, planner.choose query = .ok chosen → ∀ visit ∈ chosen.top.visits,
      (visit.access planner.allowedGenerator?).map change = visit.access none) :
    (planner.plan query).map (Plan.mapAccess change) = planner.withoutGenerator.plan query := by
  rw [plan, plan, choose_withoutGenerator]
  cases chose : planner.choose query with
  | error failure => rfl
  | ok chosen => exact planChosen_mapAccess (each chosen chose)

/-- Planning with generated code fails as planning without it does, and the plans are the same once
every scan that runs generated code is replaced by a forward scan without bounds. A generator that
expresses nothing leaves the plan as it is. -/
theorem plan_generic (planner : Planner) (query : Query) :
    (planner.plan query).map Plan.generic = planner.withoutGenerator.plan query ∧
      (planner.GeneratesNothing → planner.plan query = planner.withoutGenerator.plan query) := by
  refine ⟨plan_mapAccess fun chosen chose visit member =>
    Visit.access_generic (choose_scansUnbounded chose visit member) _, fun nothing => ?_⟩
  have allowed : ∀ generate, planner.allowedGenerator? = some generate →
      ∀ extent typeName filter, generate extent typeName filter = none := by
    intro generate allows
    rw [allowedGenerator?] at allows
    split at allows
    · exact nothing generate allows
    · cases allows
  have same : (planner.plan query).map (Plan.mapAccess fun path => path) =
      planner.withoutGenerator.plan query := plan_mapAccess fun chosen _ visit _ => by
    rw [Visit.access_of_generatesNothing allowed]
    cases visit.access none <;> rfl
  rw [← same]
  cases planner.plan query with
  | error failure => rfl
  | ok result => rw [Except.map, Plan.mapAccess, PlanNode.mapAccess_self]

/-- Employees of a name, which no index has. -/
def namedStaff : Query where
  tree := .visit (.unplanned 0 "Employee")
  conditions := (ConjunctTable.empty.addAll [
    .compare .equal (.path 0 ["name"]) (.parameter 0)]).1
  hints := ⟨some [], []⟩
  fetch := .none
  text := ""

theorem plan_generic_namedStaff : ∃ result,
    plan ⟨staffCatalog, .standard, some fun _ typeName _ => some typeName⟩ namedStaff = .ok result ∧
      (∃ path ∈ result.root.accesses, path.generic ≠ path) ∧
      plan ⟨staffCatalog, .standard, none⟩ namedStaff = .ok result.generic ∧
      plan ⟨staffCatalog, .standard, some fun _ _ _ => none⟩ namedStaff = .ok result.generic := by
  have planned : ∃ result, plan ⟨staffCatalog, .standard, some fun _ typeName _ => some typeName⟩
      namedStaff = .ok result ∧ ∃ path ∈ result.root.accesses, path.generic ≠ path :=
    ⟨_, rfl, _, List.mem_singleton_self _, by decide⟩
  obtain ⟨result, ran, scanned⟩ := planned
  have generic := (plan_generic ⟨staffCatalog, .standard, some fun _ typeName _ => some typeName⟩
    namedStaff).1
  rw [ran] at generic
  have silent : GeneratesNothing ⟨staffCatalog, .standard, some fun _ _ _ => none⟩ := by
    rintro _ ⟨⟩ _ _ _
    rfl
  have alike := (plan_generic _ namedStaff).2 silent
  exact ⟨result, ran, scanned, generic.symm, alike.trans generic.symm⟩

end Planner

end ExtentPlanner
