import ExtentPlanner.Proofs.MirroredTree

/-! The parameters that a plan uses as LIKE patterns. No lookup, no bound and no dropped assertion
takes a condition with a pattern away, so every pattern of a stored condition is evaluated in some
filter or after some join. Apart from those, only the conditions on groups bring patterns into a
plan: the query's tree has them, and they are not stored. -/
namespace ExtentPlanner

/-! ## Conditions that use a pattern -/

namespace Condition

/-- The parameter is the pattern of a LIKE somewhere in the condition. -/
inductive UsesPattern (index : Nat) : Condition → Prop where
  | like : UsesPattern index (compare .like operand (.parameter index))
  | andLeft (uses : UsesPattern index left) : UsesPattern index (and left right)
  | andRight (uses : UsesPattern index right) : UsesPattern index (and left right)
  | orLeft (uses : UsesPattern index left) : UsesPattern index (or left right)
  | orRight (uses : UsesPattern index right) : UsesPattern index (or left right)
  | not (uses : UsesPattern index negated) : UsesPattern index (not negated)

theorem mem_patternParameters_iff {condition : Condition} :
    index ∈ condition.patternParameters ↔ condition.UsesPattern index := by
  constructor
  · intro member
    induction condition with
    | truth | isType => cases member
    | compare operator left right =>
      unfold patternParameters at member
      split at member <;> try contradiction
      rename_i same
      cases same
      rw [List.mem_singleton.mp member]
      exact .like
    | and left right lefts rights =>
      exact (List.mem_append.mp member).elim (.andLeft ∘ lefts) (.andRight ∘ rights)
    | or left right lefts rights =>
      exact (List.mem_append.mp member).elim (.orLeft ∘ lefts) (.orRight ∘ rights)
    | not inner inners => exact .not (inners member)
  · intro uses
    induction uses with
    | like => exact List.mem_singleton_self _
    | andLeft _ ih | orLeft _ ih => exact List.mem_append_left _ ih
    | andRight _ ih | orRight _ ih => exact List.mem_append_right _ ih
    | not _ ih => exact ih

theorem patternParameters_conjunction (conditions : List Condition) :
    (conjunction conditions).patternParameters = conditions.flatMap patternParameters := by
  have folded : ∀ (first : Condition) (rest : List Condition),
      (rest.foldl and first).patternParameters =
        first.patternParameters ++ rest.flatMap patternParameters := by
    intro first rest
    induction rest generalizing first with
    | nil => exact (List.append_nil _).symm
    | cons condition rest ih =>
      rw [List.foldl_cons, ih, patternParameters, List.flatMap_cons, List.append_assoc]
  cases conditions with
  | nil => rfl
  | cons first rest => exact folded first rest

/-! What planning takes out of the filters has no pattern. -/

theorem patternParameters_of_columnComparison? {condition : Condition}
    (bounds : condition.columnComparison? extent = some comparison) :
    condition.patternParameters = [] := by
  cases condition with
  | compare operator left right => cases operator with | like => cases bounds | _ => rfl
  | truth | isType | and | or | not => cases bounds

theorem patternParameters_of_referenceLookup? {condition : Condition}
    (found : condition.referenceLookup? extent = some operand) :
    condition.patternParameters = [] := by
  cases condition with
  | compare operator left right => cases operator with | equal => rfl | _ => cases found
  | truth | isType | and | or | not => cases found

theorem patternParameters_of_identityLookup? {condition : Condition}
    (found : condition.identityLookup? extent = some lookup) :
    condition.patternParameters = [] := by
  cases condition with
  | compare operator left right => cases operator with | equal => rfl | _ => cases found
  | truth | isType | and | or | not => cases found

theorem patternParameters_of_assertedType? {condition : Condition}
    (asserts : condition.assertedType? extent = some target) :
    condition.patternParameters = [] := by
  cases condition with
  | isType object asserted => rfl
  | truth | compare | and | or | not => cases asserts

end Condition

open Condition (patternParameters)

/-! ## From conditions to filters -/

theorem takeFirst?_patterns {α : Type} {give? : Condition → Option α} {conditions : List Condition}
    {result : Taken α}
    (plain : ∀ condition found, give? condition = some found → condition.patternParameters = [])
    (taken : takeFirst? give? conditions = some result) :
    result.rest.flatMap patternParameters = conditions.flatMap patternParameters := by
  induction conditions generalizing result with
  | nil => cases taken
  | cons condition rest ih =>
    rw [takeFirst?] at taken
    split at taken
    · rename_i given
      cases taken
      rw [List.flatMap_cons, plain _ _ given, List.nil_append]
    · obtain ⟨later, found, rfl⟩ := Option.map_eq_some_iff.mp taken
      rw [List.flatMap_cons, List.flatMap_cons, ih found]

theorem DeclaredExtent.Thins.patterns {declared : DeclaredExtent} {names earlier : List String}
    (thins : declared.Thins names earlier conditions kept) :
    kept.flatMap patternParameters = conditions.flatMap patternParameters := by
  induction thins with
  | nil => rfl
  | other _ _ ih | needed _ _ _ _ ih | impossible _ _ _ _ ih =>
    rw [List.flatMap_cons, List.flatMap_cons, ih]
  | implied asserts _ _ ih | redundant asserts _ _ _ ih =>
    rw [List.flatMap_cons, Condition.patternParameters_of_assertedType? asserts,
      List.nil_append, ih]

theorem splitBounds_patterns (extent : Nat) (column : String) (conditions : List Condition) :
    (splitBounds extent column conditions).2.flatMap patternParameters =
      conditions.flatMap patternParameters := by
  induction conditions with
  | nil => rfl
  | cons condition rest ih =>
    rw [splitBounds]
    dsimp only
    split
    · rename_i bounds
      have plain := Condition.patternParameters_of_columnComparison?
        (Option.filter_eq_some_iff.mp bounds).1
      rw [List.flatMap_cons, plain, List.nil_append, ih]
    · rw [List.flatMap_cons, List.flatMap_cons, ih]

theorem columnRanges_patterns (extent bounded : Nat) (columns : List IndexColumn)
    (conditions : List Condition) :
    (columnRanges extent bounded columns conditions).2.flatMap patternParameters =
      conditions.flatMap patternParameters := by
  induction columns generalizing bounded conditions with
  | nil => cases bounded <;> rfl
  | cons column rest ih =>
    cases bounded with
    | zero => exact ih 0 conditions
    | succ bounded =>
      exact (ih bounded _).trans (splitBounds_patterns extent column.path conditions)

namespace Visit

variable {visit result : Visit}

/-- The visit still has all patterns of the given conditions, and none is in a condition that a
lookup has taken. -/
structure KeepsPatterns (given : List Condition) (visit : Visit) : Prop where
  conditions : visit.conditions.flatMap patternParameters = given.flatMap patternParameters
  replaced : ∀ condition, visit.replaced? = some condition → condition.patternParameters = []

theorem evaluate_keepsPatterns (untouched : visit.replaced? = none)
    (ran : visit.evaluate catalog = .ok result) : KeepsPatterns visit.conditions result := by
  cases (findsAccess_of_evaluate ran).2 with
  | hinted => exact ⟨rfl, by simp [untouched]⟩
  | reference _ found =>
    refine ⟨takeFirst?_patterns (fun _ _ => Condition.patternParameters_of_referenceLookup?) found,
      ?_⟩
    rintro condition ⟨⟩
    exact Condition.patternParameters_of_referenceLookup? (takeReference?_some found).1
  | identity _ _ found =>
    have ofKind : ∀ kind (condition : Condition) lookup,
        condition.identityLookupOf? visit.extent kind = some lookup →
          condition.patternParameters = [] := fun _ _ _ given =>
      Condition.patternParameters_of_identityLookup? (Option.filter_eq_some_iff.mp given).1
    refine ⟨?_, ?_⟩
    · rcases Option.or_eq_some_iff.mp found with first | ⟨_, second⟩
      · exact takeFirst?_patterns (ofKind .number) first
      · exact takeFirst?_patterns (ofKind .id) second
    · rintro condition ⟨⟩
      exact Condition.patternParameters_of_identityLookup? (takeIdentity?_some found).1
  | scan => exact ⟨(DeclaredExtent.dropImplied_thins _ _).patterns, by simp [untouched]⟩

theorem KeepsPatterns.redirected (keeps : KeepsPatterns given visit)
    (redirected : Redirected catalog visit result) : KeepsPatterns given result := by
  obtain ⟨_, _, rfl⟩ := redirected.same
  exact ⟨keeps.conditions, keeps.replaced⟩

theorem guardedFilter_patterns (visit : Visit) (index : Index) (conditions : List Condition) :
    (visit.guardedFilter index conditions).patternParameters =
      conditions.flatMap patternParameters := by
  rw [guardedFilter, Condition.patternParameters_conjunction, List.flatMap_append]
  split <;> exact List.append_nil _

theorem indexScan_patterns (visit : Visit) (index : Index) (direction : Direction)
    (conditions : List Condition) :
    (visit.indexScan index direction conditions).filter.patternParameters =
      conditions.flatMap patternParameters :=
  (visit.guardedFilter_patterns index _).trans (columnRanges_patterns _ _ _ conditions)

/-- Whatever access path a visit takes, its filter has the patterns of the given conditions. -/
theorem KeepsPatterns.access (keeps : KeepsPatterns given visit)
    (ran : visit.access generator? = .ok path) :
    path.filter.patternParameters = given.flatMap patternParameters := by
  rw [← keeps.conditions]
  have all : visit.allConditions.flatMap patternParameters =
      visit.conditions.flatMap patternParameters := by
    rw [allConditions, List.flatMap_append]
    cases taken : visit.replaced? with
    | none => exact List.append_nil _
    | some condition => simp [keeps.replaced condition taken]
  rw [Visit.access] at ran
  split at ran <;> cases ran
  · exact (visit.indexScan_patterns _ _ _).trans all
  · exact (visit.indexScan_patterns _ _ _).trans all
  · exact Condition.patternParameters_conjunction _
  · exact Condition.patternParameters_conjunction _
  · exact visit.indexScan_patterns _ _ _
  · rename_i index _ _ _ _ _ _
    rcases visit.extentScan_cases index generator? with ⟨code, same⟩ | same <;> rw [same]
    · exact visit.guardedFilter_patterns _ _
    · exact visit.indexScan_patterns _ _ _

end Visit

/-! ## From filters to plans -/

/-- Some condition of the list uses the parameter as a pattern. -/
def PatternIn (index : Nat) (conditions : List Condition) : Prop :=
  ∃ condition ∈ conditions, condition.UsesPattern index

theorem patternIn_iff {conditions : List Condition} :
    PatternIn index conditions ↔ index ∈ conditions.flatMap patternParameters := by
  simp only [PatternIn, List.mem_flatMap, Condition.mem_patternParameters_iff]

@[simp] theorem patternIn_nil : ¬PatternIn index [] := by simp [PatternIn]

@[simp] theorem patternIn_append {first second : List Condition} :
    PatternIn index (first ++ second) ↔ PatternIn index first ∨ PatternIn index second := by
  simp [PatternIn, or_and_right, exists_or]

theorem patternIn_cons {condition : Condition} {rest : List Condition} :
    PatternIn index (condition :: rest) ↔ PatternIn index [condition] ∨ PatternIn index rest :=
  @patternIn_append index [condition] rest

theorem patternIn_conjunction {conditions : List Condition} :
    PatternIn index [.conjunction conditions] ↔ PatternIn index conditions := by
  rw [patternIn_iff, patternIn_iff, List.flatMap_singleton, Condition.patternParameters_conjunction]

theorem patternIn_perm {first second : List Condition} (same : first.Perm second) :
    PatternIn index first ↔ PatternIn index second := by
  simp only [PatternIn, same.mem_iff]

/-- The conditions evaluated at the node itself. -/
def Enumerator.conditions : Enumerator → List Condition
  | access path => [path.filter]
  | join _ post => [post]
  | aggregate grouping _ => [grouping.having]
  | sort _ | replan .. => []

namespace PlanNode

/-- All conditions that a plan carries: filters, conditions after joins and conditions on groups. -/
def carried (root : PlanNode) : List Condition := root.nodes.flatMap (·.enumerator.conditions)

@[simp] theorem numbered_carried (root : PlanNode) : root.numbered.carried = root.carried := by
  have same := congrArg (List.flatMap Enumerator.conditions) root.numbered_enumerators
  rwa [List.flatMap_map, List.flatMap_map] at same

end PlanNode

namespace JoinTree

/-- The conditions on groups. -/
def havings (tree : JoinTree) : List Condition := tree.aggregations.map (·.1.having)

theorem JoinOrder.patternIn_havings (ordered : JoinOrder tree order) :
    PatternIn index order.havings ↔ PatternIn index tree.havings := by
  induction ordered with
  | visit leaf => exact .rfl
  | straight _ _ lefts rights =>
    simp only [havings, aggregations, List.map_append, patternIn_append] at lefts rights ⊢
    rw [lefts, rights]
  | exchanged _ _ lefts rights =>
    simp only [havings, aggregations, List.map_append, patternIn_append] at lefts rights ⊢
    rw [lefts, rights, or_comm]
  | sort _ inputs => exact inputs
  | aggregate _ inputs =>
    exact patternIn_cons.trans ((or_congr_right inputs).trans patternIn_cons.symm)

/-- A plan carries the filters of its leaves and what the tree has at its inner nodes. -/
theorem Mirrors.patternIn_carried (mirrors : Mirrors tree root) :
    PatternIn index root.carried ↔ PatternIn index (root.accesses.map Access.filter) ∨
      PatternIn index tree.posts.flatten ∨ PatternIn index tree.havings := by
  induction mirrors with
  | visit reads => simp [PlanNode.carried, PlanNode.nodes, PlanNode.enumerator,
      Enumerator.conditions, PlanNode.accesses, posts, havings, aggregations]
  | join _ _ lefts rights =>
    simp only [PlanNode.carried, PlanNode.nodes, PlanNode.enumerator, Enumerator.conditions,
      PlanNode.accesses, posts, havings, aggregations, List.flatMap_cons, List.flatMap_append,
      List.map_append, List.flatten_append, List.flatten_cons, List.flatten_nil, List.append_nil,
      patternIn_append, patternIn_conjunction] at lefts rights ⊢
    rw [lefts, rights]
    simp only [or_assoc, or_left_comm, or_comm]
  | sort _ inputs => exact inputs
  | aggregate _ inputs =>
    simp only [PlanNode.carried, PlanNode.nodes, PlanNode.enumerator, Enumerator.conditions,
      havings, aggregations, List.flatMap_cons, List.map_cons, patternIn_append] at inputs ⊢
    rw [inputs]
    refine Iff.trans ?_ (or_congr_right (or_congr_right patternIn_cons.symm))
    exact or_left_comm.trans (or_congr_right or_left_comm)

end JoinTree

namespace Planner

variable {planner : Planner} {query : Query}

theorem announceReplan_carried (query : Query) (root : PlanNode) :
    (announceReplan query root).numbered.carried = root.carried := by
  rw [PlanNode.numbered_carried]
  unfold announceReplan
  dsimp only
  split <;> rfl

/-- The filters of leaves use the patterns of the conditions that were handed to the visits. -/
private theorem patternIn_filters {leaves : List Visit} {paths : List Access}
    (kept : List.Forall₂ (fun leaf path => path.filter.patternParameters =
      leaf.conditions.flatMap patternParameters) leaves paths) :
    PatternIn index (paths.map Access.filter) ↔
      PatternIn index (leaves.flatMap (·.conditions)) := by
  have same := congrArg List.flatten (JoinTree.map_eq_of_forall₂ kept)
  rw [patternIn_iff, patternIn_iff, List.flatMap_map, List.flatMap_assoc, List.flatMap_def,
    List.flatMap_def, same]

/-- The patterns that a plan carries are those of stored conditions and of conditions on groups. -/
theorem plan_patterns {result : Plan} (ran : planner.plan query = .ok result) :
    PatternIn index result.root.carried ↔
      PatternIn index query.conditions.conditions ∨ PatternIn index query.tree.havings := by
  obtain ⟨chosen, chose, ran⟩ := bind_succeeds.mp ran
  obtain ⟨root, planned, ran⟩ := bind_succeeds.mp ran
  cases ran
  obtain ⟨trees, tree, hinted, distributed, ready, listed, member, prepares, retouched, _⟩ :=
    choose_retouched chose
  have ordered := joinOrder_of_mem_joinTrees listed member
  have evaluated := prepares.evaluated
  -- From a visit that was given conditions to the access path in the plan.
  have paths : List.Forall₂ (fun leaf path => path.filter.patternParameters =
      leaf.conditions.flatMap patternParameters) distributed.top.visits root.accesses := by
    have ofReady : List.Forall₂ (fun leaf visit => Visit.KeepsPatterns leaf.conditions visit)
        distributed.top.visits ready.top.visits :=
      ((List.forall₂_and_left _ _).mpr ⟨prepares.unevaluated ordered, evaluated.visits⟩).imp
        fun _ _ ⟨untouched, ran⟩ => Visit.evaluate_keepsPatterns untouched.replaced ran
    have ofChosen : List.Forall₂ (fun leaf visit => Visit.KeepsPatterns leaf.conditions visit)
        distributed.top.visits chosen.top.visits :=
      JoinTree.forall₂_trans ofReady retouched.visits fun _ _ _ => Visit.KeepsPatterns.redirected
    exact JoinTree.forall₂_trans ofChosen (JoinTree.plan_accesses planned)
      fun _ _ _ => Visit.KeepsPatterns.access
  have posts : chosen.top.posts = distributed.top.posts := retouched.posts.trans evaluated.posts
  have havings : chosen.top.havings = tree.havings := by
    have groupings := congrArg (List.map Grouping.having) retouched.groupings
    rw [List.map_map, List.map_map] at groupings
    refine groupings.trans ?_
    rw [← JoinTree.outline_aggregations, (prepares.isReady ordered).outline]
    rfl
  obtain ⟨hintedOrder, visited⟩ := prepares.hinted_order
  obtain ⟨bare, noPosts⟩ := prepares.hinted_bare ordered
  have stored := Candidate.distributeConditions_perm prepares.conditions
    (hintedOrder.trans visited.symm) bare noPosts
  rw [announceReplan_carried, (JoinTree.plan_mirrors planned).patternIn_carried,
    patternIn_filters paths, posts, havings, ordered.patternIn_havings, ← or_assoc,
    ← patternIn_append, patternIn_perm stored]

end Planner

end ExtentPlanner
