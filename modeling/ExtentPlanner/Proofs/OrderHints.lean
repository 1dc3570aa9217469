import ExtentPlanner.Proofs.CheapestCandidate
import ExtentPlanner.Proofs.PlannedVisits

/-! What becomes of an order hint. If some join order keeps it, only such orders are compared, and
no later step changes the order of a candidate. If none does, the hint has no influence at all: the
query is planned as it would be without it. A hint that fixes the order of the query, like a query
with too many join orders, leaves nothing to compare. -/
namespace ExtentPlanner

/-! ## The hints of a query -/

/-- The order that a hint asks for. -/
def Hint.order? : Hint → Option (List Nat)
  | joinOrder extents => some extents
  | index _ => none

namespace Hints

/-- Of several order hints the first one counts. -/
theorem addAll_joinOrder? (hints : Hints) (added : List Hint) :
    (hints.addAll added).joinOrder? = hints.joinOrder?.or (added.findSome? Hint.order?) := by
  induction added generalizing hints with
  | nil => exact (Option.or_none).symm
  | cons hint rest ih =>
    rw [addAll, List.foldl_cons, ← addAll, ih, List.findSome?_cons]
    cases hint with
    | joinOrder extents =>
      simp only [add, Hint.order?]
      rw [Option.or_assoc, Option.some_or]
    | index hint => rfl

/-- Leaving out the order is the same as not asking for any. -/
theorem addAll_withoutJoinOrder (hints : Hints) (added : List Hint) :
    (hints.addAll added).withoutJoinOrder =
      hints.withoutJoinOrder.addAll (added.filter fun hint => hint.order?.isNone) := by
  induction added generalizing hints with
  | nil => rfl
  | cons hint rest ih =>
    rw [addAll, List.foldl_cons, ← addAll, ih]
    cases hint <;> rfl

theorem keptBy_withoutJoinOrder (hints : Hints) (order : List Nat) :
    hints.withoutJoinOrder.KeptBy order := by
  rintro wanted ⟨⟩

end Hints

/-- The same query without an order hint. -/
def Query.withoutOrderHint (query : Query) : Query :=
  { query with hints := query.hints.withoutJoinOrder }

theorem JoinTree.visitOrder_unplanned (tree : JoinTree) :
    tree.unplanned.visitOrder = tree.visitOrder := by
  induction tree with
  | visit leaf => rfl
  | join kind left right post lefts rights => rw [unplanned, visitOrder, visitOrder, lefts, rights]
  | sort spec input inputs | aggregate _ _ input inputs => exact inputs

namespace Planner

variable {planner : Planner} {query : Query} {orders : List JoinTree}

/-! ## The join trees with and without the hint -/

theorem joinTrees_several (several : ¬planner.PlansOwnOrder query)
    (listed : query.tree.joinOrders = .ok orders) :
    planner.joinTrees query =
      if (orders.filter fun order => query.hints.allows order.visitOrder).isEmpty then .ok orders
      else .ok (orders.filter fun order => query.hints.allows order.visitOrder) := by
  obtain ⟨free, few⟩ := not_or.mp several
  rw [joinTrees, if_neg free, if_neg few, listed]
  exact apply_ite Except.ok _ _ _

/-- A hint that no join order keeps leaves all of them to be compared, as no hint does. -/
theorem joinTrees_ignored (several : ¬planner.PlansOwnOrder query)
    (listed : query.tree.joinOrders = .ok orders)
    (ignored : ∀ order ∈ orders, ¬query.hints.KeptBy order.visitOrder) :
    planner.joinTrees query = planner.joinTrees query.withoutOrderHint := by
  have severalToo : ¬planner.PlansOwnOrder query.withoutOrderHint :=
    not_or.mpr ⟨by simp [Query.withoutOrderHint, Hints.withoutJoinOrder, Hints.isFixed],
      (not_or.mp several).2⟩
  have none : orders.filter (fun order => query.hints.allows order.visitOrder) = [] :=
    List.filter_eq_nil_iff.mpr fun order member allowed =>
      ignored order member (Hints.allows_iff.mp allowed)
  have all : orders.filter (fun order =>
      query.withoutOrderHint.hints.allows order.visitOrder) = orders :=
    List.filter_eq_self.mpr fun order _ =>
      Hints.allows_iff.mpr (query.hints.keptBy_withoutJoinOrder order.visitOrder)
  rw [joinTrees_several several listed, joinTrees_several severalToo listed, none, all, ite_self]
  rfl

private theorem cheapestFrom_withoutOrderHint (planner : Planner) (query : Query)
    (best? : Option Candidate) (trees : List JoinTree) :
    planner.cheapestFrom query.withoutOrderHint best? trees =
      planner.cheapestFrom query best? trees := by
  induction trees generalizing best? with
  | nil => rfl
  | cons tree rest ih =>
    rw [cheapestFrom, cheapestFrom]
    simp only [ih]
    rfl

/-- Apart from the join trees that are compared, an order hint has no influence on the choice. -/
theorem choose_withoutOrderHint
    (same : planner.joinTrees query = planner.joinTrees query.withoutOrderHint) :
    planner.choose query.withoutOrderHint = planner.choose query := by
  rw [choose, choose, same]
  simp only [cheapestFrom_withoutOrderHint]
  rfl

/-! ## The chosen order -/

/-- The chosen candidate has the order of one of the join trees that were compared. -/
theorem choose_order (ran : planner.choose query = .ok chosen) :
    chosen.top.visitOrder = chosen.order ∧ ∃ trees tree, planner.Compared query trees ∧
      tree ∈ trees ∧ JoinTree.JoinOrder query.tree tree ∧ chosen.order = tree.visitOrder := by
  obtain ⟨trees, tree, _, _, ready, listed, member, prepares, retouched, order⟩ :=
    choose_retouched ran
  have ordered := joinOrder_of_mem_joinTrees listed member
  have isReady := prepares.isReady ordered
  refine ⟨?_, trees, tree, compared_of_joinTrees listed, member, ordered,
    order.trans isReady.order⟩
  rw [retouched.visitOrder, isReady.visitOrder, order, isReady.order]

/-- What the choice for a query owes to its order hint. -/
structure HonoursOrderHint (planner : Planner) (query : Query) (chosen : Candidate) : Prop where
  /-- A hint that some join order keeps is kept by the chosen one; any other might as well not have
  been given. -/
  compared : ∀ wanted, query.hints.joinOrder? = some wanted → wanted ≠ [] →
    query.tree.orderCount ≤ planner.settings.maxJoinOrders →
    ∃ orders, query.tree.joinOrders = .ok orders ∧
      ((∃ order ∈ orders, wanted.Sublist order.visitOrder) → wanted.Sublist chosen.order) ∧
      ((∀ order ∈ orders, ¬wanted.Sublist order.visitOrder) →
        planner.choose query.withoutOrderHint = .ok chosen)
  /-- A fixed order stays, and so does that of a query with too many join orders. -/
  own : query.hints.joinOrder? = some [] ∨
    planner.settings.maxJoinOrders < query.tree.orderCount → chosen.order = query.tree.visitOrder
  visited : chosen.top.visitOrder = chosen.order

/-- Order hints are honoured whenever they can be. -/
theorem choose_honours_order_hint (ran : planner.choose query = .ok chosen) :
    planner.HonoursOrderHint query chosen := by
  obtain ⟨visited, trees, tree, compared, member, _, order⟩ := choose_order ran
  refine ⟨fun wanted hinted some few => ?_, fun only => ?_, visited⟩
  · have keptBy : ∀ order : JoinTree,
        query.hints.KeptBy order.visitOrder ↔ wanted.Sublist order.visitOrder := by
      simp [Hints.KeptBy, hinted]
    have several : ¬planner.PlansOwnOrder query :=
      not_or.mpr ⟨by simp [Hints.isFixed, hinted, some], Nat.not_lt.mpr few⟩
    cases compared with
    | own only => exact absurd only several
    | @hinted orders _ listed kept =>
      refine ⟨orders, listed, fun _ => ?_, fun none => ?_⟩
      · rw [order, ← keptBy]
        exact of_decide_eq_true (List.mem_filter.mp member).2
      · obtain ⟨other, inside, keeps⟩ := kept
        exact absurd ((keptBy other).mp keeps) (none other inside)
    | all _ listed ignored =>
      refine ⟨trees, listed, ?_, fun _ => ?_⟩
      · rintro ⟨other, inside, keeps⟩
        exact absurd ((keptBy other).mpr keeps) (ignored other inside)
      · rw [choose_withoutOrderHint (joinTrees_ignored several listed ignored), ran]
  · have onlyOwn : planner.PlansOwnOrder query := only.imp_left fun fixed => by
      rw [Hints.isFixed, fixed, beq_self_eq_true]
    cases compared with
    | own => rw [order, List.mem_singleton.mp member, JoinTree.visitOrder_unplanned]
    | hinted several | all several => exact absurd onlyOwn several

/-- Employees and their bosses, with an order hint and a second one that comes too late. -/
def hintedBossQuery (wanted : List Nat) : Query :=
  { bossQuery with hints := Hints.empty.addAll [.joinOrder wanted, .joinOrder [1, 0]] }

/-- A hint makes the planner visit persons first although that is not the cheapest order. A hint on
an extent that the query does not have is ignored. -/
theorem choose_honours_order_hint_boss :
    (∃ chosen, choose ⟨staffCatalog, .standard, none⟩ (hintedBossQuery [0, 1]) = .ok chosen ∧
      HonoursOrderHint ⟨staffCatalog, .standard, none⟩ (hintedBossQuery [0, 1]) chosen ∧
      [0, 1].Sublist chosen.order) ∧
    ∃ chosen, choose ⟨staffCatalog, .standard, none⟩ (hintedBossQuery [2]) = .ok chosen ∧
      choose ⟨staffCatalog, .standard, none⟩ bossQuery = .ok chosen := by
  have first : ∀ wanted, (hintedBossQuery wanted).hints.joinOrder? = some wanted := fun wanted =>
    Hints.addAll_joinOrder? .empty _
  have bare : ∀ wanted, (hintedBossQuery wanted).withoutOrderHint = bossQuery := fun wanted => by
    rw [Query.withoutOrderHint, hintedBossQuery, Hints.addAll_withoutJoinOrder]
    rfl
  have listed : bossQuery.tree.joinOrders = .ok
      [.join .inner (.visit (.unplanned 0 "Person")) (.visit (.unplanned 1 "Employee")) [],
        .join .inner (.visit (.unplanned 1 "Employee")) (.visit (.unplanned 0 "Person")) []] := rfl
  have kept : ∃ chosen,
      choose ⟨staffCatalog, .standard, none⟩ (hintedBossQuery [0, 1]) = .ok chosen := ⟨_, rfl⟩
  have ignored : ∃ chosen,
      choose ⟨staffCatalog, .standard, none⟩ (hintedBossQuery [2]) = .ok chosen := ⟨_, rfl⟩
  obtain ⟨chosen, ran⟩ := kept
  obtain ⟨other, ranOther⟩ := ignored
  have honours := choose_honours_order_hint ran
  obtain ⟨orders, same, keeps, _⟩ := honours.compared _ (first _) (by decide) (by decide)
  cases same.symm.trans listed
  obtain ⟨orders, same, _, ignores⟩ :=
    (choose_honours_order_hint ranOther).compared _ (first _) (by decide) (by decide)
  cases same.symm.trans listed
  rw [bare] at ignores
  exact ⟨⟨chosen, ran, honours, keeps (by decide)⟩, other, ranOther, ignores (by decide)⟩

end Planner

end ExtentPlanner
