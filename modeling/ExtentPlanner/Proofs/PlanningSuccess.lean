import ExtentPlanner.Proofs.CheapestCandidate
import ExtentPlanner.Proofs.ConditionDistribution
import ExtentPlanner.Proofs.HintDistribution
import ExtentPlanner.Proofs.PathConditions

/-! When a query can be planned. Each step of planning either succeeds, whatever the catalog and the
settings, or fails because of something that can be read off the query: an extent number that is
too large, a hint that does not fit, a condition on an extent that is not visited, a class that is
not registered, or a sort below a join whose orders are to be compared. All other faults would be
the planner's own, and it has none of them. -/
namespace ExtentPlanner

/-! ## Evaluation -/

namespace JoinTree

/-- Every visit of the tree is of a registered class. -/
def Registered (catalog : Catalog) (tree : JoinTree) : Prop :=
  ∀ visit ∈ tree.visits, catalog.hierarchy.contains visit.typeName = true

/-- A visit of the tree is of a class that the failure calls unknown. -/
def UnknownClass (catalog : Catalog) (tree : JoinTree) (failure : PlanError) : Prop :=
  ∃ visit ∈ tree.visits, catalog.hierarchy.contains visit.typeName = false ∧
    failure = .typeNotFound visit.typeName

theorem Registered.congr (same : SameVisits first second) (registered : Registered catalog first) :
    Registered catalog second := by
  intro visit member
  obtain ⟨other, inside, _, typeName⟩ := SameVisits.partner (List.Perm.symm same) member
  exact typeName ▸ registered other inside

theorem UnknownClass.congr {failure : PlanError} (same : SameVisits first second)
    (unknown : UnknownClass catalog first failure) : UnknownClass catalog second failure := by
  obtain ⟨visit, member, missing, rfl⟩ := unknown
  obtain ⟨other, inside, _, typeName⟩ := same.partner member
  exact ⟨other, inside, typeName ▸ missing, typeName ▸ rfl⟩

/-- Visits can be evaluated exactly if their classes are registered. -/
theorem evaluateVisits_succeedsIff (tree : JoinTree) (catalog : Catalog) :
    SucceedsIff (tree.Registered catalog) (tree.UnknownClass catalog)
      (tree.evaluateVisits catalog).2 := by
  induction tree with
  | visit leaf =>
    rw [evaluateVisits, Visit.evaluate]
    by_cases known : catalog.hierarchy.contains leaf.typeName = true
    · rw [if_pos known]
      exact fun visit member => List.mem_singleton.mp member ▸ known
    · rw [if_neg known]
      exact ⟨fun registered => known (registered leaf List.mem_cons_self), leaf, List.mem_cons_self,
        Bool.eq_false_iff.mpr known, rfl⟩
  | join kind left right post lefts rights =>
    rw [evaluateVisits]
    split
    · rename_i evaluated onLeft
      rw [onLeft] at lefts
      refine rights.imp ?_ ?_
      · exact ⟨fun onRight => List.forall_mem_append.mpr ⟨lefts, onRight⟩,
          fun all => (List.forall_mem_append.mp all).2⟩
      · rintro failure _ ⟨visit, member, unknown⟩
        exact ⟨visit, List.mem_append_right _ member, unknown⟩
    · rename_i evaluated failure onLeft
      rw [onLeft] at lefts
      obtain ⟨unregistered, visit, member, unknown⟩ := lefts
      exact ⟨fun all => unregistered (List.forall_mem_append.mp all).1,
        visit, List.mem_append_left _ member, unknown⟩
  | sort spec input inputs => exact inputs
  | aggregate grouping presorted input inputs => exact inputs

end JoinTree

theorem Candidate.evaluate_succeedsIff (candidate : Candidate) (catalog : Catalog) :
    SucceedsIff (candidate.top.Registered catalog) (candidate.top.UnknownClass catalog)
      (candidate.evaluate catalog).2 := by
  have settled := candidate.top.evaluateVisits_succeedsIff catalog
  rw [evaluate]
  split
  · rename_i ran
    rw [ran] at settled
    exact settled
  · rename_i ran
    rw [ran] at settled
    exact settled

/-! ## One candidate -/

namespace Planner

variable {planner : Planner} {query : Query}

/-- What is wrong with a query that cannot be planned, and how planning it fails. -/
inductive Defect (planner : Planner) (query : Query) : PlanError → Prop where
  | largeExtent (member : extent ∈ query.tree.visitOrder) (large : maxExtents ≤ extent) :
    Defect planner query (.internal (.extentOutOfRange extent))
  | unfitHint (member : hint ∈ query.hints.indexHints)
    (unfit : ¬hint.Fits planner.catalog query.tree) (fault : HintFault) :
    Defect planner query (.invalidHint fault)
  | strayCondition (stray : ¬query.tree.Covers query.conditions) (missing : Nat) :
    Defect planner query (.internal (.conditionsOutsidePlan missing query.conditions.size))
  | unknownClass {failure : PlanError} (unknown : query.tree.UnknownClass planner.catalog failure) :
    Defect planner query failure
  | buriedSort {failure : PlanError} (several : ¬planner.PlansOwnOrder query)
    (buried : ¬query.tree.SortsOnTop) (refused : JoinTree.CopyRefused failure) :
    Defect planner query failure

/-- What is right with a query that can be planned. -/
structure Plannable (planner : Planner) (query : Query) : Prop where
  small : ∀ extent ∈ query.tree.visitOrder, extent < maxExtents
  hints : ∀ hint ∈ query.hints.indexHints, hint.Fits planner.catalog query.tree
  covers : query.tree.Covers query.conditions
  registered : query.tree.Registered planner.catalog
  orders : planner.PlansOwnOrder query ∨ query.tree.SortsOnTop

/-- The hints of a query can be handed to a join order exactly if they fit the query. -/
private theorem hints_succeedsIff (planner : Planner) {tree : JoinTree}
    (ordered : JoinTree.JoinOrder query.tree tree) (distinct : query.tree.visitOrder.Nodup) :
    SucceedsIff (∀ hint ∈ query.hints.indexHints, hint.Fits planner.catalog query.tree)
      (planner.Defect query)
      ((Candidate.ofTree tree).distributeHints planner.catalog query.hints.indexHints).2 := by
  have same := ordered.sameVisits
  have fits : ∀ hint : IndexHint,
      hint.Fits planner.catalog tree ↔ hint.Fits planner.catalog query.tree := fun hint =>
    ⟨fun fit => fit.congr same, fun fit => fit.congr same.symm⟩
  refine (Candidate.distributeHints_succeedsIff
    (Candidate.recorded_ofTree (ordered.distinct distinct)).positioned planner.catalog _).imp
    (forall₂_congr fun hint _ => fits hint) ?_
  rintro _ _ ⟨⟨hint, member, unfit⟩, fault, rfl⟩
  exact .unfitHint member (mt (fits hint).mpr unfit) fault

/-- The conditions of a query can be distributed exactly if the query visits what they read. -/
private theorem conditions_succeedsIff (planner : Planner) {hinted : Candidate}
    (rearranged : JoinTree.Rearranged query.tree hinted.top)
    (order : hinted.order = hinted.top.visitOrder) (sorted : query.conditions.Sorted)
    (small : ∀ extent ∈ query.tree.visitOrder, extent < maxExtents) :
    SucceedsIff (query.tree.Covers query.conditions) (planner.Defect query)
      (hinted.distributeConditions query.conditions).2 := by
  have covers : hinted.top.Covers query.conditions ↔ query.tree.Covers query.conditions :=
    ⟨fun all => all.congr rearranged.symm, fun all => all.congr rearranged⟩
  refine (Candidate.distributeConditions_succeedsIff sorted order
    (JoinTree.small_of_rearranged rearranged small)).imp covers ?_
  rintro _ stray ⟨missing, rfl⟩
  exact .strayCondition (mt covers.mpr stray) missing

private theorem evaluation_succeedsIff (planner : Planner) {distributed : Candidate}
    (same : JoinTree.SameVisits distributed.top query.tree) :
    SucceedsIff (query.tree.Registered planner.catalog) (planner.Defect query)
      (distributed.evaluate planner.catalog).2 :=
  (distributed.evaluate_succeedsIff planner.catalog).imp
    ⟨fun all => all.congr same, fun all => all.congr same.symm⟩
    fun _ _ unknown => .unknownClass (unknown.congr same)

/-- Delivering orders does not fail. -/
private theorem orderedScans_succeed {ready : Candidate} (distinct : ready.top.visitOrder.Nodup)
    (catalog : Catalog) : ∃ presorted grouped eliminated gone,
      ready.presortInput catalog = (presorted, .ok grouped) ∧
      presorted.replaceSort catalog = (eliminated, .ok gone) := by
  obtain ⟨presorted, grouped, presort⟩ : ∃ presorted grouped,
      ready.presortInput catalog = (presorted, .ok grouped) := by
    rcases Candidate.presortInput_cases distinct catalog with
      ⟨_, _, _, done⟩ | ⟨_, _, _, _, _, done⟩ <;> exact ⟨_, _, done⟩
  have still := (Candidate.presortInput_kept distinct presort).1.visitOrder ▸ distinct
  rcases Candidate.replaceSort_cases still catalog with
    ⟨_, done⟩ | ⟨_, _, _, _, _, done⟩ <;> exact ⟨presorted, grouped, _, _, presort, done⟩

/-- A join order can be planned exactly if hints, conditions and classes of the query are right. -/
theorem planCandidate_succeedsIff (planner : Planner) {tree : JoinTree}
    (ordered : JoinTree.JoinOrder query.tree tree) (sorted : query.conditions.Sorted)
    (distinct : query.tree.visitOrder.Nodup)
    (small : ∀ extent ∈ query.tree.visitOrder, extent < maxExtents) :
    SucceedsIff ((∀ hint ∈ query.hints.indexHints, hint.Fits planner.catalog query.tree) ∧
        query.tree.Covers query.conditions ∧ query.tree.Registered planner.catalog)
      (planner.Defect query) (planner.planCandidate query tree) := by
  have settled := hints_succeedsIff planner ordered distinct
  rw [planCandidate]
  rcases hints : (Candidate.ofTree tree).distributeHints planner.catalog query.hints.indexHints
    with ⟨hinted, accepted⟩
  rw [hints] at settled
  refine settled.bind fun _ accepts => ?_
  obtain rfl : accepted = .ok () := accepts
  obtain ⟨_, _, hintedOutline, hintedOrder⟩ := Candidate.distributeHints_ok hints
  have visited : hinted.top.visitOrder = tree.visitOrder := by
    rw [← JoinTree.outline_visitOrder, hintedOutline, JoinTree.outline_visitOrder,
      Candidate.ofTree]
  have settled := conditions_succeedsIff planner
    (ordered.rearranged.trans (JoinTree.rearranged_of_outline hintedOutline))
    (hintedOrder.trans visited.symm) sorted small
  rcases conditions : hinted.distributeConditions query.conditions with ⟨distributed, complete⟩
  rw [conditions] at settled
  refine settled.bind fun _ completes => ?_
  obtain rfl : complete = .ok () := completes
  obtain ⟨outline, _⟩ := Candidate.distributeConditions_outline conditions
  have settled := evaluation_succeedsIff planner
    ((JoinTree.SameVisits.of_outline (outline.trans hintedOutline)).trans ordered.sameVisits)
  rcases evaluation : distributed.evaluate planner.catalog with ⟨ready, known⟩
  rw [evaluation] at settled
  refine settled.bind_ok fun _ knows => ?_
  obtain rfl : known = .ok () := knows
  have isReady := Candidate.Prepares.isReady ⟨hints, conditions, evaluation⟩ ordered
  obtain ⟨presorted, grouped, eliminated, gone, presort, replaced⟩ :=
    orderedScans_succeed (isReady.visitOrder ▸ ordered.distinct distinct) planner.catalog
  split
  · rw [presort]
    dsimp only
    rw [replaced]
    exact ⟨_, rfl⟩
  · exact ⟨_, rfl⟩

/-! ## The search -/

private theorem validate_succeedsIff (planner : Planner) {extents : ExtentSet}
    (whole : query.tree.extentSet = .ok extents) :
    SucceedsIff (∀ hint ∈ query.hints.indexHints, hint.extent ∈ query.tree.visitOrder)
      (planner.Defect query) (query.hints.validate extents) := by
  have members := (ExtentSet.ofList_members whole).2
  rw [Hints.validate]
  split
  · rename_i none
    intro hint member
    simpa [members] using List.find?_eq_none.mp none hint member
  · rename_i hint found
    have member := List.mem_of_find?_eq_some found
    have outside : hint.extent ∉ query.tree.visitOrder := by
      simpa [← members] using List.find?_some found
    exact ⟨fun all => outside (all hint member),
      .unfitHint member (fun fits => outside fits.visited) _⟩

private theorem cheapestFrom_succeedsIff {trees : List JoinTree} {possible : Prop}
    (some : trees ≠ []) (each : ∀ tree ∈ trees,
      SucceedsIff possible (planner.Defect query) (planner.planCandidate query tree))
    (best? : Option Candidate) :
    SucceedsIff possible (planner.Defect query) (planner.cheapestFrom query best? trees) := by
  induction trees generalizing best? with
  | nil => exact absurd rfl some
  | cons tree rest ih =>
    obtain ⟨ofTree, ofRest⟩ := List.forall_mem_cons.mp each
    rw [cheapestFrom]
    by_cases last : rest = []
    · subst last
      exact ofTree.bind_ok fun _ _ => ⟨_, rfl⟩
    · exact (ofTree.bind fun _ _ => ih last ofRest _).imp (iff_of_eq (and_self _)) fun _ _ => id

private theorem cheapestFrom_isSome {trees : List JoinTree}
    (ran : planner.cheapestFrom query best? trees = .ok result?)
    (some : trees ≠ [] ∨ best?.isSome = true) : result?.isSome = true := by
  induction trees generalizing best? with
  | nil =>
    cases ran
    exact some.resolve_left fun none => none rfl
  | cons tree rest ih =>
    obtain ⟨_, _, ran⟩ := bind_succeeds.mp ran
    exact ih ran (.inr rfl)

/-- A candidate can be told which of its visits is the last. -/
private theorem markLastVisit_succeeds {candidate : Candidate}
    (order : candidate.order = candidate.top.visitOrder)
    (distinct : candidate.top.visitOrder.Nodup) :
    ∃ marked, candidate.markLastVisit = .ok marked := by
  rw [Candidate.markLastVisit]
  split
  · exact ⟨candidate, rfl⟩
  · rename_i last found
    have visited : last ∈ candidate.top.visitOrder := order ▸ List.mem_of_getLast? found
    rw [Candidate.modifyVisit, JoinTree.modifyVisit?_of_mem distinct visited]
    exact ⟨_, rfl⟩

private theorem search_succeedsIff (planner : Planner) (sorted : query.conditions.Sorted)
    (distinct : query.tree.visitOrder.Nodup) :
    SucceedsIff ((∀ extent ∈ query.tree.visitOrder, extent < maxExtents) ∧
      (∀ hint ∈ query.hints.indexHints, hint.extent ∈ query.tree.visitOrder) ∧
      (planner.PlansOwnOrder query ∨ query.tree.SortsOnTop) ∧
      (∀ hint ∈ query.hints.indexHints, hint.Fits planner.catalog query.tree) ∧
      query.tree.Covers query.conditions ∧ query.tree.Registered planner.catalog)
      (planner.Defect query) (planner.choose query) := by
  have fits : SucceedsIff (∀ extent ∈ query.tree.visitOrder, extent < maxExtents)
      (planner.Defect query) query.tree.extentSet := by
    refine (ExtentSet.ofList_succeedsIff query.tree.visitOrder).imp .rfl ?_
    rintro _ _ ⟨extent, member, large, rfl⟩
    exact .largeExtent member large
  have orders : SucceedsIff (planner.PlansOwnOrder query ∨ query.tree.SortsOnTop)
      (planner.Defect query) (planner.joinTrees query) :=
    (joinTrees_succeedsIff planner query).imp .rfl fun _ neither refused =>
      .buriedSort (not_or.mp neither).1 (not_or.mp neither).2 refused
  rw [choose]
  refine fits.bind fun extents whole => (validate_succeedsIff planner whole).bind fun _ _ =>
    orders.bind fun trees listed => ?_
  have small := (ExtentSet.ofList_members whole).1
  have each := fun tree (member : tree ∈ trees) =>
    planCandidate_succeedsIff planner (joinOrder_of_mem_joinTrees listed member) sorted distinct
      small
  have some := (compared_of_joinTrees listed).ne_nil
  refine (cheapestFrom_succeedsIff some each none).bind_ok fun best? found => ?_
  obtain ⟨best, rfl⟩ := Option.isSome_iff_exists.mp (cheapestFrom_isSome found (.inl some))
  obtain ⟨tree, member, planned⟩ := (cheapestFrom_ok found).resolve_left (by simp)
  obtain ⟨_, order, distinctBest⟩ := Plans.unmarked (planCandidate_iff.mp planned)
    (joinOrder_of_mem_joinTrees listed member) distinct
  obtain ⟨marked, marks⟩ := markLastVisit_succeeds order distinctBest
  exact ⟨marked.rememberCost, bind_succeeds.mpr ⟨marked, marks, rfl⟩⟩

/-- A candidate is chosen for exactly the queries that have no defect. -/
theorem choose_succeedsIff (planner : Planner) (sorted : query.conditions.Sorted)
    (distinct : query.tree.visitOrder.Nodup) :
    SucceedsIff (planner.Plannable query) (planner.Defect query) (planner.choose query) := by
  refine (search_succeedsIff planner sorted distinct).imp ?_ fun _ _ => id
  constructor
  · rintro ⟨small, _, orders, hints, covers, registered⟩
    exact ⟨small, hints, covers, registered, orders⟩
  · rintro ⟨small, hints, covers, registered, orders⟩
    exact ⟨small, fun hint member => (hints hint member).visited, orders, hints, covers,
      registered⟩

/-! ## The plan -/

private theorem treePlan_succeeds {tree : JoinTree} {generator? : Option FilterGenerator}
    (scanned : ∀ visit ∈ tree.visits, visit.scanIndex?.isSome = true) (fetch : Fetch) :
    ∃ root, tree.plan generator? fetch = .ok root := by
  induction tree generalizing fetch with
  | visit leaf =>
    obtain ⟨path, taken⟩ := Visit.access_succeeds (scanned leaf List.mem_cons_self) generator?
    exact ⟨_, bind_succeeds.mpr ⟨path, taken, rfl⟩⟩
  | join kind left right post lefts rights =>
    obtain ⟨onLeft, onRight⟩ := List.forall_mem_append.mp scanned
    obtain ⟨leftRoot, leftRan⟩ := lefts onLeft .none
    obtain ⟨rightRoot, rightRan⟩ := rights onRight .none
    exact ⟨_, bind_succeeds.mpr ⟨leftRoot, leftRan, bind_succeeds.mpr ⟨rightRoot, rightRan, rfl⟩⟩⟩
  | sort spec input inputs | aggregate grouping presorted input inputs =>
    obtain ⟨root, ran⟩ := inputs scanned .none
    exact ⟨_, bind_succeeds.mpr ⟨root, ran, rfl⟩⟩

private theorem choose_scanned {chosen : Candidate} (declared : planner.catalog.Declared)
    (distinct : query.tree.visitOrder.Nodup) (ran : planner.choose query = .ok chosen) :
    ∀ visit ∈ chosen.top.visits, visit.scanIndex?.isSome = true := by
  obtain ⟨_, ready, _, _, _, isReady, _, _, kept, _, _⟩ := choose_marked distinct ran
  intro visit member
  obtain ⟨own, inside, keeps⟩ := JoinTree.forall₂_partner kept.visits member
  obtain ⟨known, scans⟩ := isReady.scanned own inside
  rw [keeps.scanIndex?, scans]
  exact declared.scanIndex?_isSome known

/-- A query is planned exactly if it has no defect. -/
theorem plan_succeedsIff (declared : planner.catalog.Declared) (sorted : query.conditions.Sorted)
    (distinct : query.tree.visitOrder.Nodup) :
    SucceedsIff (planner.Plannable query) (planner.Defect query) (planner.plan query) := by
  refine (choose_succeedsIff planner sorted distinct).bind_ok fun chosen ran => ?_
  obtain ⟨root, planned⟩ :=
    treePlan_succeeds (choose_scanned declared distinct ran) query.fetch
  exact ⟨_, bind_succeeds.mpr ⟨root, planned, rfl⟩⟩

end Planner

/-! ## Faults that planning does not meet -/

/-- Faults that would be the planner's own. -/
def InternalFault.IsOwn : InternalFault → Prop
  | irreversibleOperator _ | noExtentNode _ | noJoinForPostFilter _ | noIndexForType _ | topChanged
  | noCandidate => True
  | extentOutOfRange _ | missingFromOrder .. | tooDeepToList .. | noTypeBinding _ | sortNotCopied
  | aggregationNotCopied | conditionsOutsidePlan .. => False

/-- The comparison on a column of an extent, by a mirroring that may fail. -/
def Condition.checkedComparison (extent : Nat) : Condition → Planned (Option ColumnComparison)
  | compare operator left right =>
    if !operator.isRange then .ok none
    else
      match columnBound? extent left (some operator) right with
      | some comparison => .ok (some comparison)
      | none =>
        match right.column? extent with
        | some column =>
          if operator.isReversible && !left.reads extent then do
            .ok (some ⟨column, ← operator.reverse, left⟩)
          else .ok none
        | none => .ok none
  | _ => .ok none

/-- Only operators that have a mirrored form are mirrored. -/
theorem Condition.checkedComparison_eq (extent : Nat) (condition : Condition) :
    condition.checkedComparison extent = .ok (condition.columnComparison? extent) := by
  cases condition with
  | compare operator left right =>
    rw [checkedComparison, columnComparison?]
    by_cases range : operator.isRange = true
    · rw [range, Bool.not_true, if_neg Bool.false_ne_true, if_pos rfl]
      cases columnBound? extent left (some operator) right with
      | some comparison => rfl
      | none =>
        rw [Option.none_or]
        unfold columnBound?
        cases right.column? extent with
        | none => rfl
        | some column =>
          dsimp only
          rw [Operator.isReversible, Operator.reverse]
          cases operator.reverse? with
          | none => rfl
          | some mirrored => cases left.reads extent <;> rfl
    · rw [Bool.not_eq_true] at range
      rw [range]
      rfl
  | truth | isType | and | or | not => rfl

theorem Planner.Defect.not_isOwn {planner : Planner} {query : Query} {fault : InternalFault}
    (defect : planner.Defect query (.internal fault)) : ¬fault.IsOwn := by
  cases defect with
  | largeExtent | strayCondition => exact id
  | unknownClass unknown =>
    obtain ⟨_, _, _, ⟨⟩⟩ := unknown
  | buriedSort _ _ refused => rcases refused with ⟨⟨⟩⟩ | ⟨⟨⟩⟩ <;> exact id

/-- A query is planned exactly if a candidate is chosen for it, and both exactly if it has no
defect; whatever fails, it is not the planner's own fault. -/
theorem Planner.planned_iff (planner : Planner) (query : Query)
    (declared : planner.catalog.Declared) (filled : query.conditions.Filled)
    (distinct : query.tree.visitOrder.Nodup) :
    ((∃ result, planner.plan query = .ok result) ↔ ∃ chosen, planner.choose query = .ok chosen) ∧
      ((∃ chosen, planner.choose query = .ok chosen) ↔ planner.Plannable query) ∧
      (∀ failure, planner.plan query = .error failure → planner.Defect query failure) ∧
      (∀ fault, planner.plan query = .error (.internal fault) → ¬fault.IsOwn) ∧
      ∀ extent (condition : Condition),
        condition.checkedComparison extent = .ok (condition.columnComparison? extent) := by
  have plans := plan_succeedsIff declared filled.sorted distinct
  have chooses := choose_succeedsIff planner filled.sorted distinct
  exact ⟨plans.exists_iff.trans chooses.exists_iff.symm, chooses.exists_iff,
    fun _ => plans.fault, fun _ ran => (plans.fault ran).not_isOwn,
    Condition.checkedComparison_eq⟩

/-- The employees are to be read through an index that is declared on persons. -/
def hintedStaffQuery : Query := { Planner.staffQuery with hints := ⟨some [], [⟨1, "PersonAge"⟩]⟩ }

theorem Planner.planned_iff_staff :
    (∃ result, plan ⟨staffCatalog, .standard, none⟩ hintedStaffQuery = .ok result) ∧
      Plannable ⟨staffCatalog, .standard, none⟩ hintedStaffQuery := by
  have planned : ∃ result, plan ⟨staffCatalog, .standard, none⟩ hintedStaffQuery = .ok result :=
    ⟨_, rfl⟩
  have filled : hintedStaffQuery.conditions.Filled := ConjunctTable.Filled.empty.addAll _
  obtain ⟨chosen, plannable, _⟩ := planned_iff ⟨staffCatalog, .standard, none⟩
    hintedStaffQuery staffCatalog_declared filled (by decide)
  exact ⟨planned, plannable.mp (chosen.mp planned)⟩

end ExtentPlanner
