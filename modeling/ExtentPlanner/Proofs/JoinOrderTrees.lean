import ExtentPlanner.Planner
import ExtentPlanner.Proofs.Success
import ExtentPlanner.Proofs.TreeShape

/-! Which trees the search for a join order compares. `JoinOrder` says it without listing them: a
join order is a fresh copy of the tree in which inner joins may have exchanged their sides. The
enumeration lists exactly these, and every tree that is planned for a query is one of them. -/
namespace ExtentPlanner

namespace JoinTree

/-- A fresh copy of a tree in which any inner joins have exchanged their sides. -/
inductive JoinOrder : JoinTree → JoinTree → Prop where
  | visit (leaf : Visit) : JoinOrder (visit leaf) (visit leaf.fresh)
  | straight (lefts : JoinOrder left left') (rights : JoinOrder right right') :
    JoinOrder (join kind left right post) (join kind left' right' [])
  | exchanged (lefts : JoinOrder left left') (rights : JoinOrder right right') :
    JoinOrder (join .inner left right post) (join .inner right' left' [])
  | sort (inputs : JoinOrder input input') : JoinOrder (sort spec input) (sort spec input')
  | aggregate (inputs : JoinOrder input input') :
    JoinOrder (aggregate grouping presorted input) (aggregate grouping false input')

/-- The order of the query itself is a join order. -/
theorem joinOrder_unplanned (tree : JoinTree) : JoinOrder tree tree.unplanned := by
  induction tree with
  | visit leaf => exact .visit leaf
  | join kind left right post lefts rights => exact .straight lefts rights
  | sort spec input inputs => exact .sort inputs
  | aggregate grouping presorted input inputs => exact .aggregate inputs

/-! ## What every join order has -/

theorem JoinOrder.visits_perm (ordered : JoinOrder tree order) :
    order.visits.Perm (tree.visits.map Visit.fresh) := by
  induction ordered with
  | visit leaf => exact .refl _
  | straight _ _ lefts rights =>
    simp only [visits, List.map_append]
    exact lefts.append rights
  | exchanged _ _ lefts rights =>
    simp only [visits, List.map_append]
    exact (rights.append lefts).trans List.perm_append_comm
  | sort _ inputs => exact inputs
  | aggregate _ inputs => exact inputs

theorem JoinOrder.visitOrder_perm (ordered : JoinOrder tree order) :
    order.visitOrder.Perm tree.visitOrder := by
  rw [visitOrder_eq_map, visitOrder_eq_map]
  have extents := ordered.visits_perm.map (·.extent)
  rwa [List.map_map] at extents

theorem JoinOrder.distinct (ordered : JoinOrder tree order) (distinct : tree.visitOrder.Nodup) :
    order.visitOrder.Nodup :=
  ordered.visitOrder_perm.nodup_iff.mpr distinct

/-- A join order has nothing that planning adds. -/
theorem JoinOrder.outline_self (ordered : JoinOrder tree order) : order.outline = order := by
  induction ordered with
  | visit leaf => rfl
  | straight _ _ lefts rights => rw [outline, lefts, rights]
  | exchanged _ _ lefts rights => rw [outline, lefts, rights]
  | sort _ inputs => rw [outline, inputs]
  | aggregate _ inputs => rw [outline, inputs]

theorem JoinOrder.sameVisits (ordered : JoinOrder tree order) : SameVisits order tree := by
  rw [SameVisits, ← visits_outline, ordered.outline_self]
  exact ordered.visits_perm

theorem JoinOrder.fresh_visit (ordered : JoinOrder tree order) (member : leaf ∈ order.visits) :
    leaf.fresh = leaf ∧ ∃ own ∈ tree.visits, leaf = own.fresh := by
  obtain ⟨own, inside, rfl⟩ := List.mem_map.mp (ordered.visits_perm.mem_iff.mp member)
  exact ⟨rfl, own, inside, rfl⟩

theorem JoinOrder.posts_empty (ordered : JoinOrder tree order) : order.posts.flatten = [] := by
  induction ordered with
  | visit leaf => rfl
  | straight _ _ lefts rights => simp [posts, lefts, rights]
  | exchanged _ _ lefts rights => simp [posts, lefts, rights]
  | sort _ inputs => exact inputs
  | aggregate _ inputs => exact inputs

/-- No aggregation of a join order has presorted input. -/
theorem JoinOrder.not_presorted (ordered : JoinOrder tree order)
    (member : (grouping, presorted) ∈ order.aggregations) : presorted = false := by
  induction ordered with
  | visit leaf => cases member
  | straight _ _ lefts rights => exact (List.mem_append.mp member).elim lefts rights
  | exchanged _ _ lefts rights => exact (List.mem_append.mp member).elim rights lefts
  | sort _ inputs => exact inputs member
  | aggregate _ inputs =>
    rcases List.mem_cons.mp member with same | below
    · exact (Prod.mk.inj same).2
    · exact inputs below

/-- A sort at the top stays at the top. -/
theorem JoinOrder.sort_iff (ordered : JoinOrder tree order) (spec : SortSpec) :
    (∃ input, order = .sort spec input) ↔ ∃ input, tree = .sort spec input := by
  cases ordered <;> simp

/-! ## The enumeration -/

private theorem JoinOrder.copied (ordered : JoinOrder tree order) (ran : order.copy? = .ok copy) :
    copy = order := by
  induction ordered generalizing copy with
  | visit leaf =>
    cases ran
    rfl
  | straight _ _ lefts rights =>
    obtain ⟨left, onLeft, ran⟩ := bind_succeeds.mp ran
    obtain ⟨right, onRight, ran⟩ := bind_succeeds.mp ran
    cases ran
    rw [lefts onLeft, rights onRight]
  | exchanged _ _ lefts rights =>
    obtain ⟨left, onLeft, ran⟩ := bind_succeeds.mp ran
    obtain ⟨right, onRight, ran⟩ := bind_succeeds.mp ran
    cases ran
    rw [rights onLeft, lefts onRight]
  | sort _ inputs => cases ran
  | aggregate _ inputs => cases ran

/-- The join of two join orders, with its sides exchanged or not. -/
def pairedJoin (kind : JoinKind) (exchanged : Bool) (sides : JoinTree × JoinTree) : JoinTree :=
  if exchanged then join kind sides.2 sides.1 [] else join kind sides.1 sides.2 []

theorem joinPairs_listed
    (lefts : ∀ order ∈ leftOrders, JoinOrder left order)
    (rights : ∀ order ∈ rightOrders, JoinOrder right order)
    (ran : joinPairs kind leftOrders rightOrders exchanged = .ok orders) :
    orders = (leftOrders.flatMap fun left => rightOrders.map fun right => (left, right)).map
      (pairedJoin kind exchanged) := by
  refine mapM_values (fun sides member result joined => ?_) ran
  simp only [List.mem_flatMap, List.mem_map] at member
  obtain ⟨outer, onLeft, inner, onRight, rfl⟩ := member
  cases exchanged with
  | false =>
    obtain ⟨newLeft, copiedLeft, joined⟩ := bind_succeeds.mp joined
    obtain ⟨newRight, copiedRight, joined⟩ := bind_succeeds.mp joined
    cases joined
    simp [pairedJoin, (lefts _ onLeft).copied copiedLeft, (rights _ onRight).copied copiedRight]
  | true =>
    obtain ⟨newLeft, copiedLeft, joined⟩ := bind_succeeds.mp joined
    obtain ⟨newRight, copiedRight, joined⟩ := bind_succeeds.mp joined
    cases joined
    simp [pairedJoin, (rights _ onRight).copied copiedLeft, (lefts _ onLeft).copied copiedRight]

private theorem mem_joinPairs
    (lefts : ∀ order, order ∈ leftOrders ↔ JoinOrder left order)
    (rights : ∀ order, order ∈ rightOrders ↔ JoinOrder right order)
    (ran : joinPairs kind leftOrders rightOrders exchanged = .ok orders) (order : JoinTree) :
    order ∈ orders ↔ ∃ left' right', JoinOrder left left' ∧ JoinOrder right right' ∧
      order = pairedJoin kind exchanged (left', right') := by
  rw [joinPairs_listed (fun _ => (lefts _).mp) (fun _ => (rights _).mp) ran]
  simp only [List.mem_map, List.mem_flatMap, lefts, rights]
  constructor
  · rintro ⟨sides, ⟨outer, onLeft, inner, onRight, rfl⟩, rfl⟩
    exact ⟨outer, inner, onLeft, onRight, rfl⟩
  · rintro ⟨outer, inner, onLeft, onRight, rfl⟩
    exact ⟨(outer, inner), ⟨outer, onLeft, inner, onRight, rfl⟩, rfl⟩

/-- The enumeration lists the join orders of the tree and nothing else. -/
theorem mem_joinOrders {tree : JoinTree} (listed : tree.joinOrders = .ok orders) :
    order ∈ orders ↔ JoinOrder tree order := by
  induction tree generalizing orders order with
  | visit leaf =>
    cases listed
    constructor
    · intro member
      rw [List.mem_singleton.mp member]
      exact .visit leaf
    · rintro ⟨⟩
      exact List.mem_singleton_self _
  | join kind left right post lefts rights =>
    obtain ⟨leftOrders, onLeft, listed⟩ := bind_succeeds.mp listed
    obtain ⟨rightOrders, onRight, listed⟩ := bind_succeeds.mp listed
    obtain ⟨straight, kept, listed⟩ := bind_succeeds.mp listed
    have inStraight :=
      mem_joinPairs (fun _ => lefts onLeft) (fun _ => rights onRight) kept order
    cases kind with
    | leftOuter =>
      cases listed
      rw [inStraight]
      constructor
      · rintro ⟨_, _, leftOrder, rightOrder, rfl⟩
        exact .straight leftOrder rightOrder
      · rintro (_ | ⟨leftOrder, rightOrder⟩)
        exact ⟨_, _, leftOrder, rightOrder, rfl⟩
    | inner =>
      obtain ⟨swapped, exchanged, listed⟩ := bind_succeeds.mp listed
      cases listed
      have inSwapped :=
        mem_joinPairs (fun _ => lefts onLeft) (fun _ => rights onRight) exchanged order
      rw [List.mem_append, inStraight, inSwapped]
      constructor
      · rintro (⟨_, _, leftOrder, rightOrder, rfl⟩ | ⟨_, _, leftOrder, rightOrder, rfl⟩)
        · exact .straight leftOrder rightOrder
        · exact .exchanged leftOrder rightOrder
      · rintro (_ | ⟨leftOrder, rightOrder⟩ | ⟨leftOrder, rightOrder⟩)
        · exact .inl ⟨_, _, leftOrder, rightOrder, rfl⟩
        · exact .inr ⟨_, _, leftOrder, rightOrder, rfl⟩
  | sort spec input inputs =>
    obtain ⟨inner, below, listed⟩ := bind_succeeds.mp listed
    cases listed
    simp only [List.mem_map, inputs below]
    constructor
    · rintro ⟨_, ordered, rfl⟩
      exact .sort ordered
    · rintro (_ | _ | _ | ordered)
      exact ⟨_, ordered, rfl⟩
  | aggregate grouping presorted input inputs =>
    obtain ⟨inner, below, listed⟩ := bind_succeeds.mp listed
    cases listed
    simp only [List.mem_map, inputs below]
    constructor
    · rintro ⟨_, ordered, rfl⟩
      exact .aggregate ordered
    · rintro (_ | _ | _ | _ | ordered)
      exact ⟨_, ordered, rfl⟩

end JoinTree

/-- Every tree that is planned for a query is one of its join orders. -/
theorem Planner.joinOrder_of_mem_joinTrees {planner : Planner} {query : Query}
    (listed : planner.joinTrees query = .ok trees) (member : tree ∈ trees) :
    JoinTree.JoinOrder query.tree tree := by
  unfold Planner.joinTrees at listed
  split at listed
  · cases listed
    rw [List.mem_singleton.mp member]
    exact query.tree.joinOrder_unplanned
  · split at listed
    · cases listed
      rw [List.mem_singleton.mp member]
      exact query.tree.joinOrder_unplanned
    · obtain ⟨orders, enumerated, listed⟩ := bind_succeeds.mp listed
      cases listed
      refine (JoinTree.mem_joinOrders enumerated).mp ?_
      split at member
      · exact member
      · exact (List.mem_filter.mp member).1

end ExtentPlanner
