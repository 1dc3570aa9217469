import ExtentPlanner.Proofs.JoinOrderTrees
import Mathlib.Algebra.BigOperators.Group.List.Basic
import Mathlib.Data.List.Perm.Subperm

/-! Which join orders of a query are compared, and how many there are. Every inner join doubles
the join orders, so a tree with k inner joins has 2^k; the count agrees as far as it counts, and a
tree whose extents fit an extent set is too small to be cut off. The settings bound the orders by
this count, and a hint may leave out some of them. -/
namespace ExtentPlanner

namespace JoinTree

/-- The number of joins whose sides may be exchanged. -/
def innerJoins : JoinTree → Nat
  | visit _ => 0
  | join kind left right _ =>
    match kind with
    | .inner => left.innerJoins + right.innerJoins + 1
    | .leftOuter => left.innerJoins + right.innerJoins
  | sort _ input | aggregate _ _ input => input.innerJoins

theorem innerJoins_lt (tree : JoinTree) : tree.innerJoins < tree.visitOrder.length := by
  induction tree with
  | visit leaf => simp [innerJoins, visitOrder]
  | join kind left right post lefts rights =>
    cases kind <;> simp only [innerJoins, visitOrder, List.length_append] <;> omega
  | sort spec input inputs => exact inputs
  | aggregate grouping presorted input inputs => exact inputs

/-! ## Counting -/

private theorem joinPairs_length
    (ran : joinPairs kind leftOrders rightOrders exchanged = .ok orders) :
    orders.length = leftOrders.length * rightOrders.length := by
  have paired := (mapM_succeeds.mp ran).length_eq
  rw [← paired]
  simp [List.length_flatMap]

/-- A tree with k inner joins has 2^k join orders. -/
theorem joinOrders_length {tree : JoinTree} (listed : tree.joinOrders = .ok orders) :
    orders.length = 2 ^ tree.innerJoins := by
  induction tree generalizing orders with
  | visit leaf =>
    cases listed
    rfl
  | join kind left right post lefts rights =>
    obtain ⟨leftOrders, onLeft, listed⟩ := bind_succeeds.mp listed
    obtain ⟨rightOrders, onRight, listed⟩ := bind_succeeds.mp listed
    obtain ⟨straight, kept, listed⟩ := bind_succeeds.mp listed
    have sides : straight.length = 2 ^ (left.innerJoins + right.innerJoins) := by
      rw [joinPairs_length kept, lefts onLeft, rights onRight, Nat.pow_add]
    cases kind with
    | leftOuter =>
      cases listed
      exact sides
    | inner =>
      obtain ⟨swapped, exchanged, listed⟩ := bind_succeeds.mp listed
      cases listed
      have others : swapped.length = 2 ^ (left.innerJoins + right.innerJoins) := by
        rw [joinPairs_length exchanged, lefts onLeft, rights onRight, Nat.pow_add]
      rw [List.length_append, sides, others, innerJoins, Nat.pow_succ, Nat.mul_two]
  | sort spec input inputs | aggregate grouping presorted input inputs =>
    obtain ⟨inner, below, listed⟩ := bind_succeeds.mp listed
    cases listed
    rw [List.length_map, inputs below, innerJoins]

private theorem min_mul_min (first second bound : Nat) (positiveFirst : 0 < first)
    (positiveSecond : 0 < second) :
    min (min first bound * min second bound) bound = min (first * second) bound := by
  rcases Nat.le_total first bound with small | large
  · rcases Nat.le_total second bound with smallToo | largeToo
    · rw [Nat.min_eq_left small, Nat.min_eq_left smallToo]
    · have product : bound ≤ first * second :=
        Nat.le_trans largeToo (Nat.le_mul_of_pos_left second positiveFirst)
      rw [Nat.min_eq_left small, Nat.min_eq_right largeToo, Nat.min_eq_right product]
      exact Nat.min_eq_right (Nat.le_mul_of_pos_left bound positiveFirst)
  · have product : bound ≤ first * second :=
      Nat.le_trans large (Nat.le_mul_of_pos_right first positiveSecond)
    rw [Nat.min_eq_right large, Nat.min_eq_right product]
    rcases Nat.eq_zero_or_pos bound with rfl | positive
    · simp
    · have some : 0 < min second bound := Nat.lt_min.mpr ⟨positiveSecond, positive⟩
      exact Nat.min_eq_right (Nat.le_mul_of_pos_right bound some)

/-- The count is the number of join orders, cut off. -/
theorem orderCount_eq (tree : JoinTree) : tree.orderCount = min (2 ^ tree.innerJoins) maxCount := by
  induction tree with
  | visit leaf => rfl
  | join kind left right post lefts rights =>
    have sides : min (left.orderCount * right.orderCount) maxCount =
        min (2 ^ (left.innerJoins + right.innerJoins)) maxCount := by
      rw [lefts, rights, min_mul_min _ _ _ (Nat.two_pow_pos _) (Nat.two_pow_pos _), Nat.pow_add]
    cases kind with
    | leftOuter => exact sides
    | inner =>
      have doubled := min_mul_min 2 (2 ^ (left.innerJoins + right.innerJoins)) maxCount
        Nat.two_pos (Nat.two_pow_pos _)
      rw [orderCount, sides, innerJoins, Nat.pow_succ, Nat.mul_comm _ 2, ← doubled]
      rfl
  | sort spec input inputs => exact inputs
  | aggregate grouping presorted input inputs => exact inputs

/-- A tree whose extents fit an extent set has fewer join orders than can be counted. -/
theorem orderCount_exact {tree : JoinTree} (distinct : tree.visitOrder.Nodup)
    (small : ∀ extent ∈ tree.visitOrder, extent < maxExtents) :
    tree.orderCount = 2 ^ tree.innerJoins := by
  have few : tree.visitOrder.length ≤ maxExtents := by
    have within := List.subperm_of_subset distinct fun extent member =>
      List.mem_range.mpr (small extent member)
    simpa using within.length_le
  have joins : tree.innerJoins ≤ 63 :=
    Nat.le_of_lt_succ (Nat.lt_of_lt_of_le tree.innerJoins_lt few)
  rw [orderCount_eq]
  apply Nat.min_eq_left
  calc 2 ^ tree.innerJoins ≤ 2 ^ 63 := Nat.pow_le_pow_right Nat.two_pos joins
    _ ≤ maxCount := by decide

/-! ## When join orders can be listed -/

/-- Sorts and aggregations stand above all joins. -/
def SortsOnTop : JoinTree → Prop
  | visit _ => True
  | join _ left right _ => left.JoinsOnly ∧ right.JoinsOnly
  | sort _ input | aggregate _ _ input => input.SortsOnTop

/-- A sort or an aggregation was to be copied. -/
def CopyRefused (failure : PlanError) : Prop :=
  failure = .internal .sortNotCopied ∨ failure = .internal .aggregationNotCopied

private theorem JoinsOnly.sortsOnTop {tree : JoinTree} (joins : tree.JoinsOnly) :
    tree.SortsOnTop := by
  cases tree with
  | visit leaf => trivial
  | join kind left right post => exact joins
  | sort | aggregate => exact joins.elim

private theorem copy?_succeedsIff (tree : JoinTree) :
    SucceedsIff tree.JoinsOnly CopyRefused tree.copy? := by
  induction tree with
  | visit leaf => trivial
  | join kind left right post lefts rights =>
    exact lefts.bind fun _ _ => rights.bind_ok fun _ _ => ⟨_, rfl⟩
  | sort spec input => exact ⟨id, .inl rfl⟩
  | aggregate grouping presorted input => exact ⟨id, .inr rfl⟩

private theorem JoinOrder.joinsOnly_iff (ordered : JoinOrder tree order) :
    order.JoinsOnly ↔ tree.JoinsOnly := by
  induction ordered with
  | visit leaf => exact .rfl
  | straight _ _ lefts rights => exact and_congr lefts rights
  | exchanged _ _ lefts rights => exact (and_congr rights lefts).trans and_comm
  | sort | aggregate => exact .rfl

private theorem copies_succeedsIff {left right outer inner : JoinTree}
    (ofOuter : outer.JoinsOnly ↔ left.JoinsOnly) (ofInner : inner.JoinsOnly ↔ right.JoinsOnly)
    (kind : JoinKind) :
    SucceedsIff (left.JoinsOnly ∧ right.JoinsOnly) CopyRefused
      (do .ok (join kind (← outer.copy?) (← inner.copy?) [])) := by
  refine ((copy?_succeedsIff outer).bind fun _ _ => (copy?_succeedsIff inner).bind_ok
    fun _ _ => ⟨_, rfl⟩).imp ?_ fun _ _ => id
  rw [ofOuter, ofInner]

private theorem joinPairs_succeedsIff {left right : JoinTree}
    (onLeft : left.joinOrders = .ok leftOrders) (onRight : right.joinOrders = .ok rightOrders)
    (kind : JoinKind) (exchanged : Bool) :
    SucceedsIff (left.JoinsOnly ∧ right.JoinsOnly) CopyRefused
      (joinPairs kind leftOrders rightOrders exchanged) := by
  have own : (left.unplanned, right.unplanned) ∈
      leftOrders.flatMap fun left => rightOrders.map fun right => (left, right) :=
    List.mem_flatMap.mpr ⟨_, (mem_joinOrders onLeft).mpr left.joinOrder_unplanned,
      List.mem_map_of_mem ((mem_joinOrders onRight).mpr right.joinOrder_unplanned)⟩
  refine (SucceedsIff.mapM fun sides member => ?_).imp
    ⟨fun each => each _ own, fun joins _ _ => joins⟩ fun _ _ => id
  simp only [List.mem_flatMap, List.mem_map] at member
  obtain ⟨first, isLeft, second, isRight, rfl⟩ := member
  have ofLeft := ((mem_joinOrders onLeft).mp isLeft).joinsOnly_iff
  have ofRight := ((mem_joinOrders onRight).mp isRight).joinsOnly_iff
  cases exchanged with
  | false => exact copies_succeedsIff ofLeft ofRight kind
  | true => exact (copies_succeedsIff ofRight ofLeft kind).imp and_comm fun _ _ => id

/-- Join orders can be listed exactly if sorts and aggregations stand above all joins. -/
theorem joinOrders_succeedsIff (tree : JoinTree) :
    SucceedsIff tree.SortsOnTop CopyRefused tree.joinOrders := by
  induction tree with
  | visit leaf => trivial
  | join kind left right post lefts rights =>
    have sides : left.SortsOnTop ∧ right.SortsOnTop ∧ left.JoinsOnly ∧ right.JoinsOnly ↔
        left.JoinsOnly ∧ right.JoinsOnly :=
      ⟨fun all => all.2.2, fun joins => ⟨joins.1.sortsOnTop, joins.2.sortsOnTop, joins⟩⟩
    refine (lefts.bind fun leftOrders onLeft => rights.bind fun rightOrders onRight => ?_).imp sides
      fun _ _ => id
    have straight := joinPairs_succeedsIff onLeft onRight kind false
    cases kind with
    | leftOuter => exact straight.bind_ok fun _ _ => ⟨_, rfl⟩
    | inner =>
      have swapped := joinPairs_succeedsIff onLeft onRight .inner true
      exact (straight.bind fun _ _ => swapped.bind_ok fun _ _ => ⟨_, rfl⟩).imp
        (iff_of_eq (and_self _)) fun _ _ => id
  | sort spec input inputs | aggregate grouping presorted input inputs =>
    exact inputs.bind_ok fun _ _ => ⟨_, rfl⟩

end JoinTree

/-! ## Order hints -/

/-- The wanted extents occur in an order if they are a subsequence of it: taking the first
occurrence of each leaves the most for those that follow. -/
theorem Hints.occursIn_iff {wanted order : List Nat} :
    Hints.occursIn wanted order = true ↔ wanted.Sublist order := by
  induction order generalizing wanted with
  | nil =>
    cases wanted with
    | nil => simp [occursIn]
    | cons extent rest => simp [occursIn]
  | cons visited order ih =>
    cases wanted with
    | nil => simp [occursIn]
    | cons extent rest =>
      rw [occursIn]
      split
      · rename_i here
        rw [ih, here, List.cons_sublist_cons]
      · rename_i elsewhere
        rw [ih, List.sublist_cons_iff]
        constructor
        · exact .inl
        · rintro (later | ⟨_, same, _⟩)
          · exact later
          · exact absurd (List.cons.inj same).1.symm elsewhere

/-- An order keeps the order hint if it visits the hinted extents one after the other. -/
def Hints.KeptBy (hints : Hints) (order : List Nat) : Prop :=
  ∀ wanted, hints.joinOrder? = some wanted → wanted.Sublist order

theorem Hints.allows_iff {hints : Hints} {order : List Nat} :
    hints.allows order = true ↔ hints.KeptBy order := by
  rw [allows, KeptBy]
  split
  · rename_i none
    simp [none]
  · rename_i wanted hinted
    simp [hinted, occursIn_iff]

instance (hints : Hints) (order : List Nat) : Decidable (hints.KeptBy order) :=
  decidable_of_iff _ Hints.allows_iff

/-! ## The join trees that are compared -/

namespace Planner

variable {planner : Planner} {query : Query} {trees : List JoinTree}

/-- Only the order of the query is planned, because a hint fixes it or there are too many. -/
def PlansOwnOrder (planner : Planner) (query : Query) : Prop :=
  query.hints.isFixed = true ∨ planner.settings.maxJoinOrders < query.tree.orderCount

theorem joinTrees_succeedsIff (planner : Planner) (query : Query) :
    SucceedsIff (planner.PlansOwnOrder query ∨ query.tree.SortsOnTop) JoinTree.CopyRefused
      (planner.joinTrees query) := by
  unfold joinTrees
  split
  · rename_i fixed
    exact .inl (.inl fixed)
  · rename_i free
    split
    · rename_i tooMany
      exact .inl (.inr tooMany)
    · rename_i few
      have several : ¬planner.PlansOwnOrder query := not_or.mpr ⟨free, few⟩
      exact (query.tree.joinOrders_succeedsIff.bind_ok fun _ _ => ⟨_, rfl⟩).imp
        (or_iff_right several).symm fun _ _ => id

/-- The join trees that a query's candidates are planned for. -/
inductive Compared (planner : Planner) (query : Query) : List JoinTree → Prop where
  | own (only : planner.PlansOwnOrder query) : Compared planner query [query.tree.unplanned]
  /-- The join orders that keep the order hint. -/
  | hinted (several : ¬planner.PlansOwnOrder query) (listed : query.tree.joinOrders = .ok orders)
    (kept : ∃ order ∈ orders, query.hints.KeptBy order.visitOrder) :
    Compared planner query (orders.filter fun order => query.hints.KeptBy order.visitOrder)
  /-- All join orders, as none keeps the hint. -/
  | all (several : ¬planner.PlansOwnOrder query) (listed : query.tree.joinOrders = .ok orders)
    (ignored : ∀ order ∈ orders, ¬query.hints.KeptBy order.visitOrder) :
    Compared planner query orders

theorem compared_of_joinTrees (ran : planner.joinTrees query = .ok trees) :
    planner.Compared query trees := by
  unfold joinTrees at ran
  split at ran
  · rename_i fixed
    cases ran
    exact .own (.inl fixed)
  · rename_i free
    split at ran
    · rename_i tooMany
      cases ran
      exact .own (.inr tooMany)
    · rename_i few
      have several : ¬planner.PlansOwnOrder query := not_or.mpr ⟨free, few⟩
      obtain ⟨orders, listed, ran⟩ := bind_succeeds.mp ran
      cases ran
      have same : (orders.filter fun order => query.hints.allows order.visitOrder) =
          orders.filter fun order => query.hints.KeptBy order.visitOrder :=
        List.filter_congr fun order _ =>
          Bool.eq_iff_iff.mpr (Hints.allows_iff.trans decide_eq_true_iff.symm)
      rw [same]
      split
      · rename_i none
        refine .all several listed fun order member kept => ?_
        exact List.filter_eq_nil_iff.mp (List.isEmpty_iff.mp none) order member
          (decide_eq_true kept)
      · rename_i some
        obtain ⟨order, inside⟩ := List.exists_mem_of_ne_nil _ (mt List.isEmpty_iff.mpr some)
        obtain ⟨member, kept⟩ := List.mem_filter.mp inside
        exact .hinted several listed ⟨order, member, of_decide_eq_true kept⟩

/-- At least one join tree is compared. -/
theorem Compared.ne_nil (compared : planner.Compared query trees) : trees ≠ [] := by
  cases compared with
  | own only => simp
  | hinted several listed kept =>
    obtain ⟨order, member, keeps⟩ := kept
    exact List.ne_nil_of_mem (List.mem_filter.mpr ⟨member, decide_eq_true keeps⟩)
  | all several listed ignored =>
    rintro rfl
    have length := JoinTree.joinOrders_length listed
    exact absurd length.symm (Nat.ne_of_gt (Nat.two_pow_pos _))

/-- No more join trees are compared than the settings allow. -/
theorem Compared.length_le (compared : planner.Compared query trees)
    (distinct : query.tree.visitOrder.Nodup)
    (small : ∀ extent ∈ query.tree.visitOrder, extent < maxExtents)
    (positive : 1 ≤ planner.settings.maxJoinOrders) :
    trees.length ≤ planner.settings.maxJoinOrders := by
  have bounded : ∀ {orders : List JoinTree}, ¬planner.PlansOwnOrder query →
      query.tree.joinOrders = .ok orders → orders.length ≤ planner.settings.maxJoinOrders := by
    intro orders several listed
    rw [JoinTree.joinOrders_length listed, ← JoinTree.orderCount_exact distinct small]
    exact Nat.le_of_not_lt (not_or.mp several).2
  cases compared with
  | own only => exact positive
  | hinted several listed kept =>
    exact Nat.le_trans (List.length_filter_le _ _) (bounded several listed)
  | all several listed ignored => exact bounded several listed

end Planner

end ExtentPlanner
