import ExtentPlanner.Proofs.ComparedOrders
import ExtentPlanner.Proofs.ConjunctAccounting
import ExtentPlanner.Proofs.RememberedCost
import Mathlib.Order.Defs.Unbundled

/-! The search for the cheapest candidate. Planning asks no candidate for its cost before its visits
have been evaluated, so the search compares what the trees cost. It compares as many join orders as
the settings allow, and of the cheapest candidates it takes the first.

Costs are floating-point numbers, and what is not a number has no place in their order. The costs
that the search compares are therefore assumed to be in a strict weak order. -/
namespace ExtentPlanner

namespace Planner

variable {planner : Planner} {query : Query} {chosen : Candidate}

/-- A planned candidate remembers what its tree costs. -/
theorem Plans.remembers (plans : planner.Plans query tree candidate) :
    candidate.knownCost? = some candidate.top.cost := by
  obtain ⟨_, _, ready, prepares, delivers⟩ := plans
  have exact := Candidate.evaluate_exact prepares.evaluation
  cases delivers.finished with
  | unordered => exact exact.remembers
  | ordered presort replaced =>
    have afterPresort := Candidate.presortInput_exact exact planner.catalog
    rw [presort] at afterPresort
    have afterReplace := Candidate.replaceSort_exact afterPresort planner.catalog
    rw [replaced] at afterReplace
    exact afterReplace.remembers

/-! ## The first of the cheapest -/

/-- A cost that the search compares with others. -/
def ComparedCost (planner : Planner) (query : Query) (cost : Float) : Prop :=
  ∃ trees tree candidate, planner.joinTrees query = .ok trees ∧ tree ∈ trees ∧
    planner.planCandidate query tree = .ok candidate ∧ candidate.currentCost = cost

/-- In a strict weak order, what is less than a cost is also less than all that are not. -/
private theorem less_of_not_less {occurs : Float → Prop}
    (weak : IsStrictWeakOrder {cost // occurs cost} fun first second => first.1 < second.1)
    (less least other : {cost // occurs cost}) (below : less.1 < least.1)
    (notBelow : ¬other.1 < least.1) : less.1 < other.1 := by
  by_contra notLess
  have notGreater : ¬other.1 < less.1 := fun greater =>
    notBelow (weak.trans other less least greater below)
  have notAbove : ¬least.1 < other.1 := fun above =>
    notLess (weak.trans less least other below above)
  exact (weak.incomp_trans less other least ⟨notLess, notGreater⟩ ⟨notBelow, notAbove⟩).1 below

/-- The candidate costs no more than those after it and less than those before it. -/
structure FirstCheapest (before : List Candidate) (best : Candidate)
    (after : List Candidate) : Prop where
  least : ∀ candidate ∈ before ++ best :: after, ¬candidate.currentCost < best.currentCost
  first : ∀ candidate ∈ before, best.currentCost < candidate.currentCost

/-- One more candidate displaces the best so far only if it is strictly cheaper. -/
private theorem FirstCheapest.cheaper {before after : List Candidate} {best next : Candidate}
    {occurs : Float → Prop}
    (weak : IsStrictWeakOrder {cost // occurs cost} fun first second => first.1 < second.1)
    (cheapest : FirstCheapest before best after)
    (each : ∀ candidate ∈ before ++ best :: after, occurs candidate.currentCost)
    (ofNext : occurs next.currentCost) :
    ∃ before' after', before ++ best :: after ++ [next] =
      before' ++ cheaper (some best) next :: after' ∧
        FirstCheapest before' (cheaper (some best) next) after' := by
  have ofBest := each best (List.mem_append_right _ List.mem_cons_self)
  rw [Planner.cheaper]
  split
  · rename_i below
    have above : ∀ candidate ∈ before ++ best :: after,
        next.currentCost < candidate.currentCost := fun candidate member =>
      less_of_not_less weak ⟨_, ofNext⟩ ⟨_, ofBest⟩ ⟨_, each candidate member⟩ below
        (cheapest.least candidate member)
    refine ⟨before ++ best :: after, [], rfl, fun candidate member => ?_, above⟩
    rcases List.mem_append.mp member with earlier | same
    · exact fun less => weak.irrefl ⟨_, ofNext⟩
        (weak.trans ⟨_, ofNext⟩ ⟨_, each candidate earlier⟩ ⟨_, ofNext⟩ (above candidate earlier)
          less)
    · rw [List.mem_singleton.mp same]
      exact weak.irrefl ⟨_, ofNext⟩
  · rename_i notBelow
    refine ⟨before, after ++ [next], by simp, fun candidate member => ?_, cheapest.first⟩
    rw [← List.cons_append, ← List.append_assoc] at member
    rcases List.mem_append.mp member with earlier | same
    · exact cheapest.least candidate earlier
    · rwa [List.mem_singleton.mp same]

/-- Comparing candidates from left to right finds the first of the cheapest. -/
private theorem foldl_cheaper {occurs : Float → Prop} {candidates : List Candidate}
    (weak : IsStrictWeakOrder {cost // occurs cost} fun first second => first.1 < second.1)
    (each : ∀ candidate ∈ candidates, occurs candidate.currentCost)
    (found : candidates.foldl (fun best? candidate => some (cheaper best? candidate)) none =
      some best) :
    ∃ before after, candidates = before ++ best :: after ∧ FirstCheapest before best after := by
  induction candidates using List.reverseRecOn generalizing best with
  | nil => cases found
  | append_singleton earlier next ih =>
    rw [List.foldl_append, List.foldl_cons, List.foldl_nil] at found
    have ofNext := each next (List.mem_append_right _ (List.mem_singleton_self next))
    have ofEarlier := fun candidate member => each candidate (List.mem_append_left _ member)
    cases so : earlier.foldl (fun best? candidate => some (cheaper best? candidate)) none with
    | none =>
      have alone : earlier = [] := by
        cases earlier using List.reverseRecOn with
        | nil => rfl
        | append_singleton _ _ => simp at so
      rw [so] at found
      cases found
      subst alone
      refine ⟨[], [], rfl, fun candidate member => ?_, by simp⟩
      rw [List.mem_singleton.mp member]
      exact weak.irrefl ⟨_, ofNext⟩
    | some leader =>
      rw [so] at found
      cases found
      obtain ⟨before, after, rfl, cheapest⟩ := ih ofEarlier so
      exact cheapest.cheaper weak ofEarlier ofNext

/-- The search plans the join trees one after the other and compares what it gets. -/
theorem cheapestFrom_candidates {trees : List JoinTree}
    (ran : planner.cheapestFrom query best? trees = .ok result?) :
    ∃ candidates, List.Forall₂ (planner.Plans query) trees candidates ∧
      result? = candidates.foldl (fun best? candidate => some (cheaper best? candidate)) best? := by
  induction trees generalizing best? with
  | nil =>
    cases ran
    exact ⟨[], .nil, rfl⟩
  | cons tree rest ih =>
    obtain ⟨candidate, planned, ran⟩ := bind_succeeds.mp ran
    obtain ⟨others, plans, rfl⟩ := ih ran
    exact ⟨candidate :: others, .cons (planCandidate_iff.mp planned) plans, rfl⟩

/-! ## The last visit -/

/-- No visit of the tree is marked as the last. -/
def Unmarked (tree : JoinTree) : Prop := ∀ visit ∈ tree.visits, visit.innermost = false

private theorem Unmarked.deliver {tree : JoinTree} (unmarked : Unmarked tree) (catalog : Catalog)
    (spec : SortSpec) (required : List Nat) :
    Unmarked (tree.updateEach (Candidate.deliver catalog spec required)) := by
  intro visit member
  rw [JoinTree.visits_updateEach] at member
  obtain ⟨before, inside, rfl⟩ := List.mem_map.mp member
  rw [Candidate.deliver]
  split <;> exact unmarked before inside

private theorem Unmarked.innermost_markLast {tree : JoinTree} (unmarked : Unmarked tree)
    (last : Option Nat) : ∀ visit ∈ (tree.updateEach (Candidate.markLast last)).visits,
      visit.innermost = true ↔ last = some visit.extent := by
  intro visit member
  rw [JoinTree.visits_updateEach] at member
  obtain ⟨before, inside, rfl⟩ := List.mem_map.mp member
  rw [Candidate.markLast_extent, Candidate.markLast]
  split
  · rename_i here
    exact iff_of_true rfl here.symm
  · rename_i elsewhere
    exact iff_of_false (by simp [unmarked before inside]) fun here => elsewhere here.symm

/-- A planned candidate visits each extent once, in its order, and has marked none. -/
theorem Plans.unmarked {tree : JoinTree} (plans : planner.Plans query tree candidate)
    (ordered : JoinTree.JoinOrder query.tree tree) (distinct : query.tree.visitOrder.Nodup) :
    Unmarked candidate.top ∧ candidate.order = candidate.top.visitOrder ∧
      candidate.top.visitOrder.Nodup := by
  obtain ⟨_, _, ready, prepares, delivers⟩ := plans
  have isReady := prepares.isReady ordered
  have distinctReady : ready.top.visitOrder.Nodup :=
    isReady.visitOrder ▸ ordered.distinct distinct
  obtain ⟨kept, sameOrder⟩ := delivers.finished.kept distinctReady
  have unmarked : Unmarked candidate.top :=
    delivers.finished.preserves distinctReady
      (fun _ spec required unmarked => unmarked.deliver _ spec required)
      (fun _ _ unmarked visit member => unmarked visit (Candidate.visits_setPresorted _ _ ▸ member))
      (fun _ _ unmarked => unmarked) (prepares.unmarked ordered)
  refine ⟨unmarked, ?_, kept.visitOrder ▸ distinctReady⟩
  rw [sameOrder, isReady.order, kept.visitOrder, isReady.visitOrder]

/-! ## The chosen candidate -/

/-- The candidate with its last visit marked. -/
def lastMarked (candidate : Candidate) : Candidate :=
  { candidate with
    top := candidate.top.updateEach (Candidate.markLast candidate.top.visitOrder.getLast?) }

/-- The mark leaves a remembered cost right. -/
private theorem lastMarked_remembers {candidate : Candidate}
    (remembers : candidate.knownCost? = some candidate.top.cost) :
    (lastMarked candidate).knownCost? = some (lastMarked candidate).top.cost ∧
      (lastMarked candidate).currentCost = candidate.currentCost := by
  have same : (lastMarked candidate).top.cost = candidate.top.cost :=
    JoinTree.cost_updateEach fun visit _ => by
      rw [Candidate.markLast]
      split <;> rfl
  constructor
  · rw [same]
    exact remembers
  · simp only [Candidate.currentCost, lastMarked, remembers]

private theorem rememberCost_marked {marked : Candidate}
    (distinct : candidate.top.visitOrder.Nodup) (order : candidate.order = candidate.top.visitOrder)
    (remembers : candidate.knownCost? = some candidate.top.cost)
    (marks : candidate.markLastVisit = .ok marked) :
    marked.rememberCost = lastMarked candidate := by
  obtain rfl := Candidate.markLastVisit_ok distinct marks
  simp only [Candidate.rememberCost, Candidate.currentCost, lastMarked, order, remembers]

/-- Whichever candidate is chosen, it remembers the cost of its tree, and its last visit is the one
that is marked. -/
theorem choose_remembers (distinct : query.tree.visitOrder.Nodup)
    (ran : planner.choose query = .ok chosen) :
    chosen.knownCost? = some chosen.top.cost ∧ ∀ visit ∈ chosen.top.visits,
      visit.innermost = true ↔ chosen.top.visitOrder.getLast? = some visit.extent := by
  obtain ⟨trees, tree, best, marked, listed, member, planned, marks, rfl⟩ := choose_steps ran
  have plans := planCandidate_iff.mp planned
  obtain ⟨unmarked, order, distinctBest⟩ :=
    plans.unmarked (joinOrder_of_mem_joinTrees listed member) distinct
  have sameOrder : (lastMarked best).top.visitOrder = best.top.visitOrder :=
    (Candidate.kept_markLast planner.catalog best.top _).visitOrder
  rw [rememberCost_marked distinctBest order plans.remembers marks]
  exact ⟨(lastMarked_remembers plans.remembers).1, sameOrder ▸ unmarked.innermost_markLast _⟩

/-- What the choice for a query is: of the candidates planned for the compared join trees the
first of the cheapest, its last visit marked. -/
structure Choice (planner : Planner) (query : Query) (trees : List JoinTree)
    (before : List Candidate) (best : Candidate) (after : List Candidate)
    (chosen : Candidate) : Prop where
  compared : planner.Compared query trees
  someTree : 1 ≤ trees.length
  fewTrees : trees.length ≤ planner.settings.maxJoinOrders
  planned : List.Forall₂ (planner.Plans query) trees (before ++ best :: after)
  marked : chosen = lastMarked best
  innermost : ∀ visit ∈ chosen.top.visits,
    visit.innermost = true ↔ chosen.top.visitOrder.getLast? = some visit.extent
  remembered : chosen.knownCost? = some chosen.top.cost
  least : ∀ candidate ∈ before ++ best :: after, ¬candidate.currentCost < chosen.currentCost
  first : ∀ candidate ∈ before, chosen.currentCost < candidate.currentCost

/-- The planner chooses the first of the cheapest candidates. -/
theorem choose_cheapest (distinct : query.tree.visitOrder.Nodup)
    (positive : 1 ≤ planner.settings.maxJoinOrders)
    (weak : IsStrictWeakOrder {cost // planner.ComparedCost query cost}
      fun first second => first.1 < second.1)
    (ran : planner.choose query = .ok chosen) :
    ∃ trees before best after, planner.Choice query trees before best after chosen := by
  have small := small_of_choose ran
  obtain ⟨trees, best, marked, listed, found, marks, rfl⟩ := choose_search ran
  have compared := compared_of_joinTrees listed
  obtain ⟨candidates, planned, selected⟩ := cheapestFrom_candidates found
  have occurs : ∀ candidate ∈ candidates, planner.ComparedCost query candidate.currentCost := by
    intro candidate member
    obtain ⟨tree, inside, plans⟩ := JoinTree.forall₂_partner planned member
    exact ⟨trees, tree, candidate, listed, inside, planCandidate_iff.mpr plans, rfl⟩
  obtain ⟨before, after, rfl, cheapest⟩ := foldl_cheaper weak occurs selected.symm
  have listedBest : best ∈ before ++ best :: after := by simp
  obtain ⟨tree, inside, plans⟩ := JoinTree.forall₂_partner planned listedBest
  obtain ⟨unmarked, order, distinctBest⟩ :=
    plans.unmarked (joinOrder_of_mem_joinTrees listed inside) distinct
  obtain ⟨remembered, sameCost⟩ := lastMarked_remembers plans.remembers
  have sameOrder : (lastMarked best).top.visitOrder = best.top.visitOrder :=
    (Candidate.kept_markLast planner.catalog best.top _).visitOrder
  refine ⟨trees, before, best, after, ?_⟩
  rw [rememberCost_marked distinctBest order plans.remembers marks]
  exact {
    compared
    someTree := List.length_pos_iff.mpr compared.ne_nil
    fewTrees := compared.length_le distinct small positive
    planned
    marked := rfl
    innermost := sameOrder ▸ unmarked.innermost_markLast _
    remembered
    least := sameCost ▸ cheapest.least
    first := sameCost ▸ cheapest.first }

/-- Employees with the persons that are their bosses: visited after the employees, a person is found
by reference. -/
def bossQuery : Query where
  tree := .join .inner (.visit (.unplanned 0 "Person")) (.visit (.unplanned 1 "Employee")) []
  conditions := (ConjunctTable.empty.addAll [
    .compare .equal (.path 1 ["boss"]) (.object 0)]).1
  hints := .empty
  fetch := .none
  text := ""

/-- Its two join orders cost two scans, and a scan with lookups. -/
private theorem bossQuery_costs
    (occurs : ComparedCost ⟨staffCatalog, .standard, none⟩ bossQuery cost) :
    cost = extentScanCost * extentScanCost ∨ cost = extentScanCost * referenceLookupCost := by
  obtain ⟨trees, tree, candidate, listed, member, planned, rfl⟩ := occurs
  have orders : joinTrees ⟨staffCatalog, .standard, none⟩ bossQuery = .ok
      [.join .inner (.visit (.unplanned 0 "Person")) (.visit (.unplanned 1 "Employee")) [],
        .join .inner (.visit (.unplanned 1 "Employee")) (.visit (.unplanned 0 "Person")) []] := rfl
  rw [orders] at listed
  cases listed
  rcases List.mem_cons.mp member with rfl | other
  · cases planned
    exact .inl rfl
  · rw [List.mem_singleton.mp other] at planned
    cases planned
    exact .inr rfl

private theorem bossQuery_weak :
    IsStrictWeakOrder {cost // ComparedCost ⟨staffCatalog, .standard, none⟩ bossQuery cost}
      fun first second => first.1 < second.1 := by
  have scans : ¬extentScanCost * extentScanCost < extentScanCost * extentScanCost := by decide
  have lookups : ¬extentScanCost * referenceLookupCost < extentScanCost * referenceLookupCost := by
    decide
  have more : ¬extentScanCost * extentScanCost < extentScanCost * referenceLookupCost := by decide
  have less : extentScanCost * referenceLookupCost < extentScanCost * extentScanCost := by decide
  refine { irrefl := ?_, trans := ?_, incomp_trans := ?_ }
  · rintro ⟨_, occurs⟩
    rcases bossQuery_costs occurs with rfl | rfl
    · exact scans
    · exact lookups
  all_goals
    rintro ⟨_, first⟩ ⟨_, second⟩ ⟨_, third⟩
    rcases bossQuery_costs first with rfl | rfl <;>
      rcases bossQuery_costs second with rfl | rfl <;>
      rcases bossQuery_costs third with rfl | rfl <;> simp [scans, lookups, more, less]

/-- The second order is chosen. -/
theorem choose_cheapest_boss :
    ∃ chosen, choose ⟨staffCatalog, .standard, none⟩ bossQuery = .ok chosen ∧
      chosen.order = [1, 0] ∧ ∃ trees before best after,
        Choice ⟨staffCatalog, .standard, none⟩ bossQuery trees before best after chosen := by
  have order : (choose ⟨staffCatalog, .standard, none⟩ bossQuery).toOption.map (·.order) =
      some [1, 0] := by decide +kernel
  have chose : ∃ chosen, choose ⟨staffCatalog, .standard, none⟩ bossQuery = .ok chosen := ⟨_, rfl⟩
  obtain ⟨chosen, ran⟩ := chose
  rw [ran] at order
  exact ⟨chosen, ran, Option.some.inj order,
    choose_cheapest (by decide) (by decide) bossQuery_weak ran⟩

end Planner

end ExtentPlanner
