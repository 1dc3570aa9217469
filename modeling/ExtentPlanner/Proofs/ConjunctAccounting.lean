import ExtentPlanner.Proofs.PlanningRun
import Mathlib.Algebra.Order.Group.Multiset

/-! A plan uses every condition of its query once. The planner hands conditions to visits and joins,
lookups take some of them, implied assertions are dropped and index scans turn comparisons into
bounds; the main theorem says that all of this together neither loses nor repeats a condition. What
a plan filters by beside them are the guards of scans over indexes of ancestor classes. -/
namespace ExtentPlanner

/-- Whether a condition asserts a class that the objects of the extent are of anyway, because of the
class that `tree` declares for the extent or because of the filter of the access path. -/
def Access.Implies (hierarchy : Hierarchy) (tree : JoinTree) (path : Access)
    (condition : Condition) : Prop :=
  ∃ visit, tree.visit? path.extent = some visit ∧
    (visit.declared hierarchy).Implied path.filter.filterConjuncts condition

/-- The guards of an access path for the class that `tree` declares for its extent. -/
def Access.declaredGuards (tree : JoinTree) (path : Access) : List Use :=
  (tree.visit? path.extent).elim [] fun visit => path.guards visit.typeName

namespace PlanNode

def guards (tree : JoinTree) (node : PlanNode) : List Use :=
  node.accesses.flatMap (Access.declaredGuards tree)

/-- The plan uses the conditions once each, but for implied assertions, and beside them only guards
of scans over indexes that have all objects of the declared class. -/
structure Accounts (catalog : Catalog) (tree : JoinTree) (conditions : List Condition)
    (root : PlanNode) : Prop where
  uses : ∃ (own : Multiset Use) (served dropped : Multiset Condition),
    (conditions : Multiset Condition) = served + dropped ∧
    (root.uses : Multiset Use) = own + root.guards tree ∧ Multiset.Rel Use.Serves own served ∧
    ∀ condition ∈ dropped, ∃ path ∈ root.accesses, path.Implies catalog.hierarchy tree condition
  scans : ∀ path ∈ root.accesses, ∀ index, path.index? = some index → ∃ visit,
    tree.visit? path.extent = some visit ∧ catalog.canScan index visit.typeName = true

theorem numberedFrom_keeps (node : PlanNode) (next : Nat) :
    (node.numberedFrom next).1.uses = node.uses ∧
      (node.numberedFrom next).1.accesses = node.accesses := by
  induction node generalizing next with
  | access id fetch path => exact ⟨rfl, rfl⟩
  | join id fetch type left right post lefts rights =>
    simp [numberedFrom, uses, accesses, lefts, rights]
  | sort id fetch spec input inputs => exact inputs next
  | aggregate id fetch grouping presorted input inputs => exact inputs next
  | replan id fetch parameters query input inputs => exact inputs next

end PlanNode

/-- The access paths of a plan are those that the visits take, in order. -/
theorem JoinTree.plan_accesses {tree : JoinTree} {generator? : Option FilterGenerator}
    (ran : tree.plan generator? fetch = .ok root) :
    List.Forall₂ (fun visit path => visit.access generator? = .ok path)
      tree.visits root.accesses := by
  induction tree generalizing root fetch with
  | visit leaf =>
    obtain ⟨path, taken, ran⟩ := bind_succeeds.mp ran
    cases ran
    exact .cons taken .nil
  | join kind left right post lefts rights =>
    obtain ⟨outer, onLeft, ran⟩ := bind_succeeds.mp ran
    obtain ⟨inner, onRight, ran⟩ := bind_succeeds.mp ran
    cases ran
    exact List.rel_append (lefts onLeft) (rights onRight)
  | sort spec input inputs | aggregate grouping presorted input inputs =>
    obtain ⟨below, onInput, ran⟩ := bind_succeeds.mp ran
    cases ran
    have paths := inputs onInput
    exact paths

/-- The plan of a join tree takes the access paths of its visits, and evaluates after joins what
stands there. -/
theorem JoinTree.plan_ok {tree : JoinTree} {generator? : Option FilterGenerator}
    (each : ∀ condition ∈ tree.posts.flatten, condition.IsConjunct)
    (ran : tree.plan generator? fetch = .ok root) :
    List.Forall₂ (fun visit path => visit.access generator? = .ok path)
      tree.visits root.accesses ∧
    (root.uses : Multiset Use) =
      root.accesses.flatMap Access.uses + tree.posts.flatten.map Use.post := by
  refine ⟨plan_accesses ran, ?_⟩
  induction tree generalizing root fetch with
  | visit leaf =>
    obtain ⟨path, taken, ran⟩ := bind_succeeds.mp ran
    cases ran
    simp [PlanNode.uses, PlanNode.accesses, posts]
  | join kind left right post lefts rights =>
    obtain ⟨leftRoot, onLeft, ran⟩ := bind_succeeds.mp ran
    obtain ⟨rightRoot, onRight, ran⟩ := bind_succeeds.mp ran
    cases ran
    simp only [posts, List.flatten_append, List.mem_append] at each
    have leftUses := lefts (fun _ member => each _ (.inl (.inl member))) onLeft
    have rightUses := rights (fun _ member => each _ (.inl (.inr member))) onRight
    have own : (Condition.conjunction post).filterConjuncts = post :=
      Condition.filterConjuncts_conjunction fun condition member =>
        each condition (.inr (by simpa using member))
    simp only [PlanNode.uses, PlanNode.accesses, posts, own, ← Multiset.coe_add, leftUses,
      rightUses, List.flatMap_append, List.flatten_append, List.map_append, List.flatten_cons,
      List.flatten_nil, List.append_nil]
    rw [add_add_add_comm, add_assoc, add_assoc, add_assoc]
  | sort spec input inputs =>
    obtain ⟨below, onInput, ran⟩ := bind_succeeds.mp ran
    cases ran
    simpa only [posts, PlanNode.uses, PlanNode.accesses] using inputs each onInput
  | aggregate grouping presorted input inputs =>
    obtain ⟨below, onInput, ran⟩ := bind_succeeds.mp ran
    cases ran
    simpa only [posts, PlanNode.uses, PlanNode.accesses] using inputs each onInput

/-! ## From leaves to the plan -/

/-- The access path accounts for the conditions that its visit was given. -/
private def LeafAccounts (catalog : Catalog) (tree : JoinTree) (given : List Condition)
    (path : Access) : Prop :=
  ∃ (own : List Use) (served dropped : Multiset Condition),
    (given : Multiset Condition) = served + dropped ∧
    path.uses = own ++ path.declaredGuards tree ∧ Multiset.Rel Use.Serves own served ∧
    ∀ condition ∈ dropped, path.Implies catalog.hierarchy tree condition

private theorem leafAccounts_of_prepared {catalog : Catalog} {tree : JoinTree} {visit own : Visit}
    {generator? : Option FilterGenerator} (declared : tree.visit? visit.extent = some own)
    (fresh : own.fresh = visit.fresh) (prepared : visit.Prepared catalog given)
    (each : ∀ condition ∈ given, condition.IsConjunct)
    (ran : visit.access generator? = .ok path) : LeafAccounts catalog tree given path := by
  obtain ⟨extent, uses, served, dropped, parts, same, serves, implied⟩ :=
    prepared.accounted each ran
  have typeName : own.typeName = visit.typeName := congrArg (·.typeName) fresh
  have class_ : own.declared catalog.hierarchy = visit.declared catalog.hierarchy := by
    rw [Visit.declared, Visit.declared, typeName, show own.extent = visit.extent from
      congrArg (·.extent) fresh]
  refine ⟨uses, served, dropped, parts, ?_, serves, fun condition member => ?_⟩
  · rw [same, Access.declaredGuards, extent, declared, Option.elim_some, typeName]
  · exact ⟨own, extent ▸ declared, class_ ▸ implied condition member⟩

private theorem accounts_of_leaves {catalog : Catalog} {tree : JoinTree}
    {givens : List (List Condition)} {paths : List Access}
    (leaves : List.Forall₂ (LeafAccounts catalog tree) givens paths) :
    ∃ (own : Multiset Use) (served dropped : Multiset Condition),
      (givens.flatten : Multiset Condition) = served + dropped ∧
      (paths.flatMap Access.uses : Multiset Use) =
        own + paths.flatMap (Access.declaredGuards tree) ∧
      Multiset.Rel Use.Serves own served ∧
      ∀ condition ∈ dropped, ∃ path ∈ paths, path.Implies catalog.hierarchy tree condition := by
  induction leaves with
  | nil => exact ⟨0, 0, 0, rfl, rfl, .zero, by simp⟩
  | @cons given path givens paths leaf _ ih =>
    obtain ⟨own, served, dropped, parts, same, serves, implied⟩ := leaf
    obtain ⟨owns, serveds, droppeds, restParts, restSame, restServes, restImplied⟩ := ih
    refine ⟨own + owns, served + serveds, dropped + droppeds, ?_, ?_, .add serves restServes, ?_⟩
    · rw [List.flatten_cons, ← Multiset.coe_add, parts, restParts, add_add_add_comm]
    · rw [List.flatMap_cons, List.flatMap_cons, ← Multiset.coe_add, ← Multiset.coe_add, same,
        restSame, ← Multiset.coe_add, add_add_add_comm]
    · intro condition member
      rcases Multiset.mem_add.mp member with here | later
      · exact ⟨path, List.mem_cons_self, implied condition here⟩
      · obtain ⟨other, inside, implies⟩ := restImplied condition later
        exact ⟨other, List.mem_cons_of_mem _ inside, implies⟩

private theorem serves_post (conditions : List Condition) :
    Multiset.Rel Use.Serves (conditions.map Use.post) conditions := by
  induction conditions with
  | nil => exact .zero
  | cons condition rest ih => exact .cons (by rw [Use.Serves]) ih

namespace Planner

variable {planner : Planner} {query : Query}

private theorem leaves_accounted {chosen : Candidate} {givens : List (List Condition)}
    {generator? : Option FilterGenerator}
    (each : ∀ condition ∈ givens.flatten, condition.IsConjunct)
    (prepared : List.Forall₂ (fun given visit => visit.Prepared planner.catalog given)
      givens chosen.top.visits)
    (visited : ∀ visit ∈ chosen.top.visits, ∃ own, query.tree.visit? visit.extent = some own ∧
      own.fresh = visit.fresh)
    (taken : List.Forall₂ (fun visit path => visit.access generator? = .ok path)
      chosen.top.visits paths) :
    List.Forall₂ (LeafAccounts planner.catalog query.tree) givens paths := by
  have conjuncts : ∀ given ∈ givens, ∀ condition ∈ given, condition.IsConjunct :=
    fun given inside condition member =>
      each condition (List.mem_flatten.mpr ⟨given, inside, member⟩)
  refine JoinTree.forall₂_trans ((List.forall₂_and_left _ _).mpr ⟨conjuncts, prepared⟩)
    ((List.forall₂_and_left _ _).mpr ⟨visited, taken⟩) ?_
  rintro given visit path ⟨conjuncts, ready⟩ ⟨⟨own, declared, fresh⟩, ran⟩
  exact leafAccounts_of_prepared declared fresh ready conjuncts ran

theorem announceReplan_keeps (query : Query) (root : PlanNode) :
    (announceReplan query root).numbered.uses = root.uses ∧
      (announceReplan query root).numbered.accesses = root.accesses := by
  obtain ⟨uses, accesses⟩ := (announceReplan query root).numberedFrom_keeps 0
  have same : (announceReplan query root).uses = root.uses ∧
      (announceReplan query root).accesses = root.accesses := by
    unfold announceReplan
    dsimp only
    split <;> exact ⟨rfl, rfl⟩
  exact ⟨uses.trans same.1, accesses.trans same.2⟩

/-- Every condition stored for a query is used once in its plan, or is an assertion that the class
of an extent or another assertion about it implies; and the plan uses nothing else but guards. -/
theorem plan_accounts {result : Plan} (declared : planner.catalog.Declared)
    (filled : query.conditions.Filled) (distinct : query.tree.visitOrder.Nodup)
    (ran : planner.plan query = .ok result) :
    result.root.Accounts planner.catalog query.tree query.conditions.conditions := by
  obtain ⟨chosen, chose, ran⟩ := bind_succeeds.mp ran
  obtain ⟨root, planned, ran⟩ := bind_succeeds.mp ran
  cases ran
  obtain ⟨⟨givens, prepared, whole⟩, visited⟩ := choose_holds declared.distinct distinct chose
  have each : ∀ condition ∈ givens.flatten ++ chosen.top.posts.flatten, condition.IsConjunct :=
    fun condition member => filled.isConjunct (whole.mem_iff.mp member)
  obtain ⟨taken, uses⟩ := JoinTree.plan_ok
    (fun condition member => each condition (List.mem_append_right _ member)) planned
  obtain ⟨own, served, dropped, parts, leafUses, serves, implied⟩ := accounts_of_leaves
    (leaves_accounted (fun condition member => each condition (List.mem_append_left _ member))
      prepared visited taken)
  obtain ⟨sameUses, sameAccesses⟩ := announceReplan_keeps query root
  refine ⟨⟨own + chosen.top.posts.flatten.map Use.post, served + chosen.top.posts.flatten, dropped,
    ?_, ?_, .add serves (serves_post _), ?_⟩, ?_⟩
  · rw [← Multiset.coe_eq_coe.mpr whole, ← Multiset.coe_add, parts, add_right_comm]
  · rw [PlanNode.guards, sameUses, sameAccesses, uses, leafUses, add_right_comm]
  · rw [sameAccesses]
    exact implied
  · rw [sameAccesses]
    intro path member index scanned
    obtain ⟨visit, inside, ran⟩ := JoinTree.forall₂_partner taken member
    obtain ⟨own, declaredAs, fresh⟩ := visited visit inside
    obtain ⟨given, listed, ready⟩ := JoinTree.forall₂_partner prepared inside
    have conjuncts : ∀ condition ∈ given, condition.IsConjunct := fun condition member =>
      each condition (List.mem_append_left _ (List.mem_flatten.mpr ⟨given, listed, member⟩))
    obtain ⟨extent, _⟩ := ready.accounted conjuncts ran
    refine ⟨own, extent ▸ declaredAs, ?_⟩
    rw [show own.typeName = visit.typeName from congrArg (·.typeName) fresh]
    exact Visit.access_canScan ready.scans ran scanned

/-- A class, a subclass of it and an index that serves both. -/
def staffCatalog : Catalog :=
  ⟨0, ⟨[⟨"Employee", some "Person"⟩, ⟨"Person", none⟩]⟩,
    [Catalog.defaultIndex "Person", Catalog.defaultIndex "Employee",
      ⟨"PersonAge", "Person", [⟨"age", .ascending, .integer⟩]⟩]⟩

theorem staffCatalog_declared : staffCatalog.Declared := by
  have person : (Catalog.empty 0).declareType "Person" none =
      .ok ⟨0, ⟨[⟨"Person", none⟩]⟩, [Catalog.defaultIndex "Person"]⟩ := rfl
  have employee : Catalog.declareType ⟨0, ⟨[⟨"Person", none⟩]⟩, [Catalog.defaultIndex "Person"]⟩
      "Employee" (some "Person") = .ok ⟨0, ⟨[⟨"Employee", some "Person"⟩, ⟨"Person", none⟩]⟩,
        [Catalog.defaultIndex "Person", Catalog.defaultIndex "Employee"]⟩ := rfl
  have age : Catalog.declareIndex ⟨0, ⟨[⟨"Employee", some "Person"⟩, ⟨"Person", none⟩]⟩,
        [Catalog.defaultIndex "Person", Catalog.defaultIndex "Employee"]⟩ "PersonAge" "Person"
      [⟨"age", .ascending, .integer⟩] = .ok staffCatalog := rfl
  exact .index (.type (.type (.empty 0) person) employee) age

/-- Persons of an age, with employees that are older and have no name. One condition is implied by
the declared class, two become bounds and one waits for the join; the scan of the employees needs a
guard. -/
def staffQuery : Query where
  tree := .join .leftOuter (.visit (.unplanned 0 "Person")) (.visit (.unplanned 1 "Employee")) []
  conditions := (ConjunctTable.empty.addAll [
    .isType (.object 0) (.named "Person"),
    .compare .equal (.path 0 ["age"]) (.parameter 0),
    .compare .greater (.path 1 ["age"]) (.path 0 ["age"]),
    .isNull (.path 1 ["name"])]).1
  hints := ⟨some [], []⟩
  fetch := .none
  text := ""

theorem plan_accounts_staff :
    ∃ result, plan ⟨staffCatalog, .standard, none⟩ staffQuery = .ok result ∧
      result.root.Accounts staffCatalog staffQuery.tree staffQuery.conditions.conditions := by
  have planned : ∃ result, plan ⟨staffCatalog, .standard, none⟩ staffQuery = .ok result := ⟨_, rfl⟩
  obtain ⟨result, ran⟩ := planned
  have filled : staffQuery.conditions.Filled := ConjunctTable.Filled.empty.addAll _
  exact ⟨result, ran, plan_accounts staffCatalog_declared filled (by decide) ran⟩

end Planner

end ExtentPlanner
