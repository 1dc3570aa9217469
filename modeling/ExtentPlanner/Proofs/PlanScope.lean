import ExtentPlanner.Proofs.ConditionDistribution
import ExtentPlanner.Proofs.ConjunctAccounting
import ExtentPlanner.Proofs.ReadScope

/-! Every plan is well scoped. A condition goes to the first visit at which everything it reads is
bound, or to a join whose sides have it; later steps change access paths and drop sorts but leave
the order of visits and the joins alone. So an executor that runs the plan never reads an extent
that has no row yet. -/
namespace ExtentPlanner

namespace PlanNode

/-- Whether the condition after a join reads only extents of its inputs. -/
def PostScoped : PlanNode → Prop
  | join _ _ _ left right post =>
    ∀ extent ∈ post.extents, extent ∈ (left.accesses ++ right.accesses).map Access.extent
  | access .. | sort .. | aggregate .. | replan .. => True

/-- Nothing in a plan reads an extent before it has been visited: keys and bounds of an access path
read extents visited before, its filter reads also its own, and conditions after joins read extents
of the join. -/
structure WellScoped (root : PlanNode) : Prop where
  keys : ∀ position path, root.accesses[position]? = some path →
    ∀ extent ∈ path.keyExtents, extent ∈ (root.accesses.take position).map Access.extent
  filters : ∀ position path, root.accesses[position]? = some path →
    ∀ extent ∈ path.filter.extents, extent ∈ (root.accesses.take (position + 1)).map Access.extent
  posts : ∀ node ∈ root.nodes, node.PostScoped

theorem postScoped_numberedFrom (node : PlanNode) (next : Nat)
    (inScope : ∀ inner ∈ node.nodes, inner.PostScoped) :
    ∀ inner ∈ (node.numberedFrom next).1.nodes, inner.PostScoped := by
  induction node generalizing next with
  | access id fetch path => exact List.forall_mem_singleton.mpr trivial
  | join id fetch type left right post lefts rights =>
    obtain ⟨own, below⟩ := List.forall_mem_cons.mp inScope
    obtain ⟨leftScope, rightScope⟩ := List.forall_mem_append.mp below
    refine List.forall_mem_cons.mpr
      ⟨?_, List.forall_mem_append.mpr ⟨lefts _ leftScope, rights _ rightScope⟩⟩
    rw [PostScoped, (left.numberedFrom_keeps _).2, (right.numberedFrom_keeps _).2]
    exact own
  | sort id fetch spec input inputs | aggregate id fetch _ _ input inputs
  | replan id fetch _ _ input inputs =>
    exact List.forall_mem_cons.mpr ⟨trivial, inputs _ (List.forall_mem_cons.mp inScope).2⟩

theorem postScoped_announced {root : PlanNode} (query : Query)
    (inScope : ∀ node ∈ root.nodes, node.PostScoped) :
    ∀ node ∈ (Planner.announceReplan query root).numbered.nodes, node.PostScoped := by
  refine postScoped_numberedFrom _ 0 ?_
  unfold Planner.announceReplan
  dsimp only
  split
  · exact inScope
  · exact List.forall_mem_cons.mpr ⟨trivial, inScope⟩

end PlanNode

namespace JoinTree

variable {tree : JoinTree}

/-- Whether the conditions after every join read only extents of its sides. -/
def PostsScoped : JoinTree → Prop
  | visit _ => True
  | join _ left right post => left.PostsScoped ∧ right.PostsScoped ∧
    ∀ condition ∈ post, ∀ extent ∈ condition.extents, extent ∈ left.visitOrder ++ right.visitOrder
  | sort _ input | aggregate _ _ input => input.PostsScoped

theorem postsScoped_of_subtrees (inScope : ∀ sub ∈ tree.subtrees, ∀ condition ∈ sub.posts.flatten,
    ∀ extent ∈ condition.extents, extent ∈ sub.visitOrder) : tree.PostsScoped := by
  induction tree with
  | visit leaf => trivial
  | join kind left right post lefts rights =>
    obtain ⟨own, below⟩ := List.forall_mem_cons.mp inScope
    obtain ⟨leftScope, rightScope⟩ := List.forall_mem_append.mp below
    refine ⟨lefts leftScope, rights rightScope, fun condition member => own condition ?_⟩
    simp [posts, member]
  | sort spec input inputs | aggregate _ _ input inputs =>
    exact inputs (List.forall_mem_cons.mp inScope).2

theorem Pointwise.postsScoped {related : Visit → Visit → Prop}
    (extents : ∀ a b, related a b → b.extent = a.extent) (paired : Pointwise related before after)
    (inScope : before.PostsScoped) : after.PostsScoped := by
  induction paired with
  | visit paired => trivial
  | join leftPaired rightPaired lefts rights =>
    obtain ⟨leftScope, rightScope, own⟩ := inScope
    refine ⟨lefts leftScope, rights rightScope, ?_⟩
    rwa [leftPaired.visitOrder extents, rightPaired.visitOrder extents]
  | sort _ inputs | aggregate _ inputs => exact inputs inScope

theorem PostsScoped.updateEach {change : Visit → Visit} (inScope : tree.PostsScoped)
    (extents : ∀ visit, (change visit).extent = visit.extent) :
    (tree.updateEach change).PostsScoped := by
  refine (tree.updateEach_pointwise change).postsScoped ?_ inScope
  rintro visit _ rfl
  exact extents visit

theorem PostsScoped.setPresorted (inScope : tree.PostsScoped) (presorted : Bool) :
    (tree.setPresorted presorted).PostsScoped := by
  cases tree with
  | sort spec input => cases input <;> exact inScope
  | visit | join | aggregate => exact inScope

/-- The plan of a tree keeps what conditions after joins read. -/
theorem PostsScoped.plan {generator? : Option FilterGenerator} (inScope : tree.PostsScoped)
    (each : ∀ condition ∈ tree.posts.flatten, condition.IsConjunct)
    (visited : ∀ visit ∈ tree.visits, ∀ path, visit.access generator? = .ok path →
      path.extent = visit.extent)
    (ran : tree.plan generator? fetch = .ok root) :
    root.accesses.map Access.extent = tree.visitOrder ∧ ∀ node ∈ root.nodes, node.PostScoped := by
  induction tree generalizing root fetch with
  | visit leaf =>
    obtain ⟨path, taken, ran⟩ := bind_succeeds.mp ran
    cases ran
    exact ⟨congrArg (fun extent => [extent]) (visited leaf (List.mem_singleton_self _) path taken),
      List.forall_mem_singleton.mpr trivial⟩
  | join kind left right post lefts rights =>
    obtain ⟨leftRoot, onLeft, ran⟩ := bind_succeeds.mp ran
    obtain ⟨rightRoot, onRight, ran⟩ := bind_succeeds.mp ran
    cases ran
    simp only [posts, List.flatten_append, List.mem_append] at each
    obtain ⟨leftScope, rightScope, own⟩ := inScope
    obtain ⟨visitedLeft, visitedRight⟩ := List.forall_mem_append.mp visited
    obtain ⟨leftOrder, leftPosts⟩ := lefts leftScope
      (fun _ member => each _ (.inl (.inl member))) visitedLeft onLeft
    obtain ⟨rightOrder, rightPosts⟩ := rights rightScope
      (fun _ member => each _ (.inl (.inr member))) visitedRight onRight
    refine ⟨by simp [PlanNode.accesses, leftOrder, rightOrder, visitOrder],
      List.forall_mem_cons.mpr ⟨fun extent read => ?_,
        List.forall_mem_append.mpr ⟨leftPosts, rightPosts⟩⟩⟩
    obtain ⟨conjunct, member, reads⟩ := Condition.exists_conjunct_of_read read
    rw [Condition.filterConjuncts_conjunction fun condition member =>
      each condition (.inr (by simpa using member))] at member
    rw [List.map_append, leftOrder, rightOrder]
    exact own conjunct member extent reads
  | sort spec input inputs | aggregate _ _ input inputs =>
    obtain ⟨below, onInput, ran⟩ := bind_succeeds.mp ran
    cases ran
    obtain ⟨order, posts⟩ := inputs inScope each visited onInput
    exact ⟨order, List.forall_mem_cons.mpr ⟨trivial, posts⟩⟩

end JoinTree

namespace Candidate

open JoinTree

variable {candidate next : Candidate} {table : ConjunctTable}

/-- Conditions are handed to visits and joins that have what they read. -/
theorem distributeConditions_scopes (sorted : table.Sorted)
    (ordered : candidate.order = candidate.top.visitOrder)
    (distinct : candidate.top.visitOrder.Nodup)
    (small : ∀ extent ∈ candidate.top.visitOrder, extent < maxExtents)
    (bare : ∀ visit ∈ candidate.top.visits, visit.conditions = [])
    (noPosts : candidate.top.posts.flatten = [])
    (ran : candidate.distributeConditions table = (next, .ok ())) :
    next.top.PostsScoped ∧ ∀ position visit, next.top.visits[position]? = some visit →
      ∀ condition ∈ visit.conditions, condition ∈ table.conditions ∧ ∀ extent ∈ condition.extents,
        extent ∈ candidate.top.visitOrder.take (position + 1) := by
  obtain ⟨supplied, placement, fills, placed, attached, _, _⟩ := distributeConditions_ok ran
  rw [ordered] at placed
  have visited := candidate.top.rearranged_mapVisits (fun position leaf =>
    leaf.addConditions (placement.conditionsAt position)) fun _ _ => rfl
  refine ⟨postsScoped_of_subtrees fun sub below condition held => ?_,
    fun position visit there => ?_⟩
  · have settled := attachPostFilters_settles (small_of_rearranged visited small)
      (visited.visitOrder_perm.nodup_iff.mp distinct) (postFilters_read sorted fills placed)
      (settled_nil (by rw [(mapVisits_pointwise _ _).posts, noPosts])) attached
    obtain ⟨filter, listed, rfl, suits⟩ := (settled sub below condition).mp held
    rw [List.append_nil, List.mem_reverse] at listed
    obtain ⟨group, stored, condition, inside, _, _, rfl⟩ :=
      postFilters_waiting sorted fills placed listed
    exact (((waiting_faithful sorted stored inside).suits_iff sub).mp suits).2
  · rw [(attachPostFilters_ok attached).1, visits_mapVisits, List.getElem?_mapIdx] at there
    obtain ⟨own, inside, rfl⟩ := Option.map_eq_some_iff.mp there
    intro condition member
    rw [Visit.addConditions, bare own (List.mem_of_getElem? inside), List.nil_append] at member
    exact placed_reads sorted small placed (mem_conditionsAt_iff.mp member)

end Candidate

namespace Planner

variable {planner : Planner} {query : Query} {chosen : Candidate}

/-- The visits of the chosen candidate are ready for stored conditions that read only what has been
visited, and the conditions after its joins read only extents of the joins. -/
theorem choose_scopes (declared : planner.catalog.hierarchy.Distinct)
    (sorted : query.conditions.Sorted) (distinct : query.tree.visitOrder.Nodup)
    (ran : planner.choose query = .ok chosen) :
    chosen.top.PostsScoped ∧ ∃ givens : List (List Condition),
      List.Forall₂ (fun given visit => visit.Prepared planner.catalog given)
        givens chosen.top.visits ∧
      ∀ position given, givens[position]? = some given → ∀ condition ∈ given,
        condition ∈ query.conditions.conditions ∧ ∀ extent ∈ condition.extents,
          extent ∈ chosen.top.visitOrder.take (position + 1) := by
  have small := small_of_choose ran
  obtain ⟨trees, tree, finished, marked, listed, member, planned, marks, rfl⟩ := choose_steps ran
  have ordered := joinOrder_of_mem_joinTrees listed member
  obtain ⟨hinted, distributed, ready, prepares, delivers⟩ := planCandidate_iff.mp planned
  have isReady := prepares.isReady ordered
  obtain ⟨order, visited⟩ := prepares.hinted_order
  obtain ⟨bare, noPosts⟩ := prepares.hinted_bare ordered
  have distinctTree := ordered.distinct distinct
  have distinctReady : ready.top.visitOrder.Nodup := isReady.visitOrder ▸ distinctTree
  obtain ⟨kept, _⟩ := delivers.finished.kept distinctReady
  obtain rfl := Candidate.markLastVisit_ok (kept.visitOrder ▸ distinctReady) marks
  have keptAll := kept.trans
    (Candidate.kept_markLast planner.catalog finished.top finished.order.getLast?)
  obtain ⟨posts, conditions⟩ := Candidate.distributeConditions_scopes sorted
    (order.trans visited.symm) (visited ▸ distinctTree)
    (visited ▸ JoinTree.small_of_rearranged ordered.rearranged small) bare noPosts
    prepares.conditions
  refine ⟨?_, _, JoinTree.forall₂_trans (prepares.prepared ordered declared) keptAll.visits
    (fun _ _ _ prepared keeps => keeps.prepared _ prepared), fun position given there => ?_⟩
  · have readyPosts : ready.top.PostsScoped := prepares.evaluated.postsScoped
      (fun _ _ ran => congrArg (·.extent) (Visit.evaluate_keeps ran).1) posts
    refine JoinTree.PostsScoped.updateEach ?_ (Candidate.markLast_extent _)
    exact delivers.finished.preserves distinctReady
      (fun _ _ _ inScope => inScope.updateEach fun _ => Candidate.deliver_extent _)
      (fun _ presorted inScope => inScope.setPresorted presorted) (fun _ _ => id) readyPosts
  · rw [List.getElem?_map] at there
    obtain ⟨visit, inside, rfl⟩ := Option.map_eq_some_iff.mp there
    rw [Candidate.rememberCost, keptAll.visitOrder, isReady.visitOrder, ← visited]
    exact conditions position visit inside

/-- The access path of a visit reads what has been visited before it, apart from its filter. -/
private theorem path_in_scope {givens : List (List Condition)} {root : PlanNode}
    (filled : query.conditions.Filled)
    (prepared : List.Forall₂ (fun given visit => visit.Prepared planner.catalog given)
      givens chosen.top.visits)
    (reads : ∀ position given, givens[position]? = some given → ∀ condition ∈ given,
      condition ∈ query.conditions.conditions ∧ ∀ extent ∈ condition.extents,
        extent ∈ chosen.top.visitOrder.take (position + 1))
    (taken : List.Forall₂ (fun visit path => visit.access planner.allowedGenerator? = .ok path)
      chosen.top.visits root.accesses) (there : root.accesses[position]? = some path) :
    (∀ extent ∈ path.keyExtents, extent ∈ chosen.top.visitOrder.take position) ∧
      ∀ extent ∈ path.filter.extents, extent ∈ chosen.top.visitOrder.take (position + 1) := by
  obtain ⟨visit, visited, ran⟩ := JoinTree.forall₂_partner_at taken there
  obtain ⟨given, listed, ready⟩ := JoinTree.forall₂_partner_at prepared visited
  have here : chosen.top.visitOrder[position]? = some visit.extent := by
    rw [JoinTree.visitOrder_eq_map, List.getElem?_map, visited, Option.map_some]
  have split : chosen.top.visitOrder.take (position + 1) =
      chosen.top.visitOrder.take position ++ [visit.extent] := by
    rw [List.take_add_one, here, Option.toList_some]
  have own := reads position given listed
  rw [split] at own ⊢
  exact (ready.path_reads (fun condition member => filled.isConjunct (own condition member).1)
    (fun condition member => (own condition member).2) ran).2

/-- Nothing in a plan reads an extent before it has been visited. -/
theorem plan_wellScoped {result : Plan} (declared : planner.catalog.Declared)
    (filled : query.conditions.Filled) (distinct : query.tree.visitOrder.Nodup)
    (ran : planner.plan query = .ok result) : result.root.WellScoped := by
  obtain ⟨chosen, chose, ran⟩ := bind_succeeds.mp ran
  obtain ⟨root, planned, ran⟩ := bind_succeeds.mp ran
  cases ran
  obtain ⟨postsInScope, givens, prepared, reads⟩ :=
    choose_scopes declared.distinct filled.sorted distinct chose
  obtain ⟨⟨_, _, whole⟩, _⟩ := choose_holds declared.distinct distinct chose
  have conjuncts : ∀ condition ∈ chosen.top.posts.flatten, condition.IsConjunct :=
    fun condition member =>
      filled.isConjunct (whole.mem_iff.mp (List.mem_append_right _ member))
  obtain ⟨taken, _⟩ := JoinTree.plan_ok conjuncts planned
  obtain ⟨order, posts⟩ := postsInScope.plan conjuncts
    (fun _ _ _ => Visit.access_extent) planned
  have sameAccesses := (announceReplan_keeps query root).2
  refine ⟨fun position path there => ?_, fun position path there => ?_,
    PlanNode.postScoped_announced query posts⟩
  · rw [sameAccesses] at there ⊢
    rw [List.map_take, order]
    exact (path_in_scope filled prepared reads taken there).1
  · rw [sameAccesses] at there ⊢
    rw [List.map_take, order]
    exact (path_in_scope filled prepared reads taken there).2

/-- The bound on the age of the employees reads the persons, which are visited before them. -/
theorem plan_wellScoped_staff :
    ∃ result, plan ⟨staffCatalog, .standard, none⟩ staffQuery = .ok result ∧
      result.root.accesses.map Access.keyExtents = [[], [0]] ∧ result.root.WellScoped := by
  have planned : ∃ result, plan ⟨staffCatalog, .standard, none⟩ staffQuery = .ok result ∧
      result.root.accesses.map Access.keyExtents = [[], [0]] := ⟨_, rfl, rfl⟩
  obtain ⟨result, ran, keys⟩ := planned
  have filled : staffQuery.conditions.Filled := ConjunctTable.Filled.empty.addAll _
  exact ⟨result, ran, keys, plan_wellScoped staffCatalog_declared filled (by decide) ran⟩

end Planner

end ExtentPlanner
