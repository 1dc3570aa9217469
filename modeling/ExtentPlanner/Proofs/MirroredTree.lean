import ExtentPlanner.Proofs.OrderHints
import ExtentPlanner.Proofs.PlanNumbering
import ExtentPlanner.Proofs.ReadScope

/-! The plan of a query mirrors the join tree that was chosen for it, node for node. Building the
plan and numbering it are two walks over the tree, and neither changes its shape; what the choice
has settled, the order of visits, the cost and the last visit, can therefore be read off the plan.
Only the announcement that a query has to be planned again stands above the mirrored tree. -/
namespace ExtentPlanner

/-! ## Trees and plans of one shape -/

/-- The plan has the nodes of the tree, apart from numbers and paging: a leaf reads the extent of
its visit, and a join evaluates the conditions that wait there. -/
inductive JoinTree.Mirrors : JoinTree → PlanNode → Prop where
  | visit (reads : path.extent = leaf.extent) : Mirrors (visit leaf) (.access number fetch path)
  | join (lefts : Mirrors left leftInput) (rights : Mirrors right rightInput) :
    Mirrors (join kind left right post)
      (.join number fetch kind.type leftInput rightInput (.conjunction post))
  | sort (inputs : Mirrors below input) : Mirrors (sort spec below) (.sort number fetch spec input)
  | aggregate (inputs : Mirrors below input) :
    Mirrors (aggregate grouping presorted below) (.aggregate number fetch grouping presorted input)

namespace JoinTree

variable {tree : JoinTree} {root : PlanNode}

theorem plan_mirrors {generator? : Option FilterGenerator}
    (ran : tree.plan generator? fetch = .ok root) : tree.Mirrors root := by
  induction tree generalizing root fetch with
  | visit leaf =>
    obtain ⟨path, taken, ran⟩ := bind_succeeds.mp ran
    cases ran
    exact .visit (Visit.access_extent taken)
  | join kind left right post lefts rights =>
    obtain ⟨leftRoot, onLeft, ran⟩ := bind_succeeds.mp ran
    obtain ⟨rightRoot, onRight, ran⟩ := bind_succeeds.mp ran
    cases ran
    exact .join (lefts onLeft) (rights onRight)
  | sort spec input inputs =>
    obtain ⟨below, onInput, ran⟩ := bind_succeeds.mp ran
    cases ran
    exact .sort (inputs onInput)
  | aggregate grouping presorted input inputs =>
    obtain ⟨below, onInput, ran⟩ := bind_succeeds.mp ran
    cases ran
    exact .aggregate (inputs onInput)

namespace Mirrors

theorem numberedFrom (mirrors : tree.Mirrors root) (next : Nat) :
    tree.Mirrors (root.numberedFrom next).1 := by
  induction mirrors generalizing next with
  | visit reads => exact .visit reads
  | join _ _ lefts rights => exact .join (lefts _) (rights _)
  | sort _ inputs => exact .sort (inputs _)
  | aggregate _ inputs => exact .aggregate (inputs _)

theorem leaves (mirrors : tree.Mirrors root) :
    root.accesses.map Access.extent = tree.visitOrder := by
  induction mirrors with
  | visit reads => exact congrArg (fun extent => [extent]) reads
  | join _ _ lefts rights =>
    rw [PlanNode.accesses, List.map_append, lefts, rights, visitOrder]
  | sort _ inputs | aggregate _ inputs => exact inputs

theorem body (mirrors : tree.Mirrors root) : root.body = root := by
  cases mirrors <;> rfl

end Mirrors

end JoinTree

/-! ## The announcement -/

namespace Planner

/-- A numbered plan is its body, under an announcement exactly if the query has pattern parameters.
-/
theorem announceReplan_numbered (query : Query) {root : PlanNode} (plain : root.body = root) :
    (announceReplan query root).numbered.body = root.numbered ∧
      if query.conditions.patternVariables = [] then
        (announceReplan query root).numbered = root.numbered
      else ∃ id, (announceReplan query root).numbered =
        .replan id .none query.conditions.patternVariables query.text root.numbered := by
  unfold announceReplan
  dsimp only
  by_cases none : query.conditions.patternVariables = []
  · rw [if_pos none, none, List.isEmpty_nil, if_pos rfl]
    refine ⟨?_, rfl⟩
    cases root with
    | replan => exact absurd (congrArg sizeOf plain) (by simp [PlanNode.body])
    | access | join | sort | aggregate => rfl
  · rw [if_neg none, if_neg (by rwa [List.isEmpty_iff])]
    exact ⟨rfl, _, rfl⟩

end Planner

/-! ## The last leaf -/

/-- Whether the executor may take the scan for the innermost one; lookups have no such mark. -/
def Access.innermost? : Access → Option Bool
  | indexScan _ _ _ _ _ innermost | fullScan _ _ _ _ innermost => some innermost
  | reference .. | identity .. => none

theorem Visit.access_innermost {visit : Visit} (ran : visit.access generator? = .ok path)
    (scans : path.innermost? = some mark) : mark = visit.innermost := by
  rw [access] at ran
  split at ran
  case h_6 index _ _ _ _ _ _ =>
    cases ran
    rcases visit.extentScan_cases index generator? with ⟨code, same⟩ | same <;>
      rw [same] at scans <;> exact (Option.some.inj scans).symm
  case h_3 | h_4 =>
    cases ran
    cases scans
  case h_7 => cases ran
  all_goals
    cases ran
    exact (Option.some.inj scans).symm

/-- Where items are distinct, the last of them stands at the last position only. -/
private theorem getLast?_eq_iff {items : List Nat} (distinct : items.Nodup)
    (there : items[position]? = some item) :
    items.getLast? = some item ↔ position + 1 = items.length := by
  obtain ⟨inside, rfl⟩ := List.getElem?_eq_some_iff.mp there
  rw [List.getLast?_eq_getElem?, List.getElem?_eq_some_iff]
  constructor
  · rintro ⟨last, same⟩
    have positions := (distinct.getElem_inj_iff).mp same
    omega
  · intro last
    exact ⟨by omega, by congr; omega⟩

namespace Planner

variable {planner : Planner} {query : Query} {chosen : Candidate}

/-- The plan of a query mirrors the candidate that was chosen for it. -/
structure MirrorsChoice (query : Query) (chosen : Candidate) (plan : Plan) : Prop where
  shape : chosen.top.Mirrors plan.root.body
  announced : if query.conditions.patternVariables = [] then plan.root = plan.root.body
    else ∃ id, plan.root =
      .replan id .none query.conditions.patternVariables query.text plan.root.body
  leaves : plan.root.accesses.map Access.extent = chosen.order
  cost : plan.cost = chosen.currentCost ∧ chosen.currentCost = chosen.top.cost
  numbers : plan.root.Numbered
  innermost : ∀ position path mark, plan.root.accesses[position]? = some path →
    path.innermost? = some mark → (mark = true ↔ position + 1 = plan.root.accesses.length)

/-- The plan of a query without repeated extents mirrors the chosen candidate. -/
theorem plan_mirrors_choice {result : Plan} (distinct : query.tree.visitOrder.Nodup)
    (ran : planner.plan query = .ok result) :
    ∃ chosen, planner.choose query = .ok chosen ∧ MirrorsChoice query chosen result := by
  obtain ⟨chosen, chose, ran⟩ := bind_succeeds.mp ran
  obtain ⟨root, planned, ran⟩ := bind_succeeds.mp ran
  cases ran
  have mirrors := JoinTree.plan_mirrors planned
  obtain ⟨body, announced⟩ := announceReplan_numbered query mirrors.body
  obtain ⟨remembered, marked⟩ := choose_remembers distinct chose
  obtain ⟨visited, _, _, _, _, ordered, order⟩ := choose_order chose
  have distinctChosen : chosen.top.visitOrder.Nodup := by
    rw [visited, order]
    exact ordered.distinct distinct
  have accesses := (announceReplan_keeps query root).2
  refine ⟨chosen, chose, ?_, ?_, ?_, ⟨rfl, ?_⟩, PlanNode.numbered_isNumbered _, ?_⟩
  · rw [body]
    exact mirrors.numberedFrom 0
  · rwa [body]
  · rw [accesses, mirrors.leaves, visited]
  · rw [Candidate.currentCost, remembered]
  · intro position path mark there scans
    rw [accesses] at there ⊢
    obtain ⟨visit, held, taken⟩ :=
      JoinTree.forall₂_partner_at (JoinTree.plan_accesses planned) there
    have here : chosen.top.visitOrder[position]? = some visit.extent := by
      rw [JoinTree.visitOrder_eq_map, List.getElem?_map, held, Option.map_some]
    rw [Visit.access_innermost taken scans, marked visit (List.mem_of_getElem? held),
      getLast?_eq_iff distinctChosen here, ← mirrors.leaves, List.length_map]

/-- Persons whose names match a pattern that is not known yet, with employees. -/
def namesLike (fetch : Fetch) : Query where
  tree := .join .leftOuter (.visit (.unplanned 0 "Person")) (.visit (.unplanned 1 "Employee")) []
  conditions := (ConjunctTable.empty.addAll [
    .compare .like (.path 0 ["name"]) (.parameter 0)]).1
  hints := .empty
  fetch := fetch
  text := "SELECT * FROM Person p LEFT OUTER JOIN Employee e WHERE p.name LIKE ?"

/-- Two scans, their join and the announcement are numbered in this order. -/
theorem plan_mirrors_choice_namesLike :
    ∃ result chosen, plan ⟨staffCatalog, .standard, none⟩ (namesLike .none) = .ok result ∧
      choose ⟨staffCatalog, .standard, none⟩ (namesLike .none) = .ok chosen ∧
      MirrorsChoice (namesLike .none) chosen result ∧
      result.root.postOrder.map PlanNode.id = [0, 1, 2, 3] := by
  have planned : ∃ result, plan ⟨staffCatalog, .standard, none⟩ (namesLike .none) = .ok result ∧
      result.root.nodes.length = 4 := ⟨_, rfl, rfl⟩
  obtain ⟨result, ran, four⟩ := planned
  obtain ⟨chosen, chose, mirrors⟩ := plan_mirrors_choice (by decide) ran
  refine ⟨result, chosen, ran, chose, mirrors, ?_⟩
  rw [mirrors.numbers.counted, four]
  rfl

end Planner

end ExtentPlanner
