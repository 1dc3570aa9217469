import ExtentPlanner.Proofs.PlanningRun
import ExtentPlanner.Proofs.ReorderedConjuncts

/-! The order of a query's conjuncts. Planning is followed in two runs at once, for tables that hold
the same conjuncts in different orders. From the evaluation of the visits on, the two candidates
have matching trees whose visits are read in the same ways, and each step asks only what these have
in common; so the steps that avoid sorts decide the same, the candidates cost the same and the
search chooses the same join order. -/
namespace ExtentPlanner

open JoinTree (Matched)
open Visit (SameAccess)

namespace Candidate

/-- The candidates have the same order and remember the same cost, and their trees match in the way
each visit is read. -/
structure Twins (candidate twin : Candidate) : Prop where
  order : twin.order = candidate.order
  knownCost? : twin.knownCost? = candidate.knownCost?
  trees : Matched SameAccess candidate.top twin.top

/-- Two runs of a step that lead to twins and have the same outcome. -/
inductive SameRun {α : Type} : Candidate × Planned α → Candidate × Planned α → Prop where
  | intro (twins : Twins next other) (outcome : Planned α) :
    SameRun (next, outcome) (other, outcome)

theorem SameRun.of_ok {α : Type} {result : α} {first second : Candidate × Planned α}
    (same : SameRun first second) (ran : first = (next, .ok result)) :
    ∃ other, second = (other, .ok result) ∧ Twins next other := by
  cases same with
  | intro twins outcome =>
    cases ran
    exact ⟨_, rfl, twins⟩

namespace Twins

variable {candidate twin : Candidate}

theorem cost (twins : Twins candidate twin) : twin.top.cost = candidate.top.cost :=
  twins.trees.cost fun _ _ => SameAccess.cost

theorem currentCost (twins : Twins candidate twin) : twin.currentCost = candidate.currentCost := by
  rw [Candidate.currentCost, Candidate.currentCost, twins.knownCost?, twins.cost]

theorem rememberCost (twins : Twins candidate twin) :
    Twins candidate.rememberCost twin.rememberCost :=
  ⟨twins.order, congrArg some twins.currentCost, twins.trees⟩

theorem forgetCost (twins : Twins candidate twin) : Twins candidate.forgetCost twin.forgetCost :=
  ⟨twins.order, rfl, twins.trees⟩

theorem setPresorted (twins : Twins candidate twin) (presorted : Bool) :
    Twins (candidate.setPresorted presorted) (twin.setPresorted presorted) :=
  ⟨twins.order, twins.knownCost?, twins.trees.setPresorted presorted⟩

theorem visit? (twins : Twins candidate twin) (extent : Nat) :
    Option.Rel SameAccess (candidate.visit? extent) (twin.visit? extent) :=
  twins.trees.visit? (fun _ _ => SameAccess.extent) extent

theorem modifyVisit (twins : Twins candidate twin) (extent : Nat) {change : Visit → Visit}
    (keeps : ∀ visit other, SameAccess visit other → SameAccess (change visit) (change other)) :
    Alike Twins (candidate.modifyVisit extent change) (twin.modifyVisit extent change) := by
  have changed := twins.trees.modifyVisit? (fun _ _ => SameAccess.extent) keeps extent
  rw [Candidate.modifyVisit, Candidate.modifyVisit]
  generalize candidate.top.modifyVisit? extent change = inFirst at changed
  generalize twin.top.modifyVisit? extent change = inSecond at changed
  cases changed with
  | some trees => exact .succeed ⟨twins.order, twins.knownCost?, trees⟩
  | none => exact .fail _ _

/-! ## Delivering orders -/

theorem setOrderIndexes (twins : Twins candidate twin) (settings : List (Nat × Option IndexUse)) :
    SameRun (candidate.setOrderIndexes settings) (twin.setOrderIndexes settings) := by
  induction settings generalizing candidate twin with
  | nil => exact .intro twins.forgetCost (.ok ())
  | cons setting rest ih =>
    obtain ⟨extent, use?⟩ := setting
    have changed := twins.trees.modifyVisit? (fun _ _ => SameAccess.extent)
      (fun _ _ same => same.setOrderIndex use?) extent
    rw [Candidate.setOrderIndexes, Candidate.setOrderIndexes, Candidate.modifyVisit,
      Candidate.modifyVisit]
    generalize candidate.top.modifyVisit? extent _ = inFirst at changed ⊢
    generalize twin.top.modifyVisit? extent _ = inSecond at changed ⊢
    cases changed with
    | some trees => exact ih ⟨twins.order, twins.knownCost?, trees⟩
    | none => exact .intro twins _

theorem restoreOrderIndexes (twins : Twins candidate twin)
    (previous : List (Nat × Option IndexUse)) :
    SameRun (candidate.restoreOrderIndexes previous) (twin.restoreOrderIndexes previous) := by
  have set := twins.setOrderIndexes previous
  rw [Candidate.restoreOrderIndexes, Candidate.restoreOrderIndexes]
  generalize candidate.setOrderIndexes previous = inFirst at set
  generalize twin.setOrderIndexes previous = inSecond at set
  cases set with
  | intro changed outcome =>
    cases outcome with
    | ok done => exact .intro changed (.ok false)
    | error failure => exact .intro changed (.error failure)

theorem orderAssignment? (twins : Twins candidate twin) (catalog : Catalog) (spec : SortSpec)
    (extent : Nat) :
    twin.orderAssignment? catalog spec extent = candidate.orderAssignment? catalog spec extent := by
  have visited := twins.visit? extent
  rw [Candidate.orderAssignment?, Candidate.orderAssignment?]
  generalize candidate.visit? extent = own at visited
  generalize twin.visit? extent = other at visited
  cases visited with
  | none => rfl
  | @some visit visit' same =>
    have permitted : permits visit' = permits visit := by
      funext use
      rw [permits, permits, same.hintedIndex?]
    simp only [Option.bind_eq_bind, Option.bind_some, same.typeName, permitted]

theorem orderAssignments? (twins : Twins candidate twin) (catalog : Catalog) (spec : SortSpec) :
    twin.orderAssignments? catalog spec = candidate.orderAssignments? catalog spec := by
  have each : twin.orderAssignment? catalog spec = candidate.orderAssignment? catalog spec :=
    funext fun extent => twins.orderAssignment? catalog spec extent
  rw [Candidate.orderAssignments?, Candidate.orderAssignments?, each, twins.order]

theorem previousOrderIndexes (twins : Twins candidate twin) (assignments : List OrderAssignment) :
    twin.previousOrderIndexes assignments = candidate.previousOrderIndexes assignments := by
  refine List.map_congr_left fun assignment _ => ?_
  have visited := twins.visit? assignment.extent
  generalize candidate.visit? assignment.extent = own at visited
  generalize twin.visit? assignment.extent = other at visited
  cases visited with
  | none => rfl
  | some same => rw [Option.bind_some, Option.bind_some, same.orderIndex?]

/-- An aggregation of one tree gets presorted input exactly if that of the other does. -/
theorem presortInput (twins : Twins candidate twin) (catalog : Catalog) :
    SameRun (candidate.presortInput catalog) (twin.presortInput catalog) := by
  rw [Candidate.presortInput, Candidate.presortInput, twins.trees.topGrouping?]
  split
  · exact .intro twins _
  rename_i grouping _
  rw [twins.orderAssignments?]
  split
  · exact .intro twins _
  rename_i assignments _
  have known := twins.rememberCost
  have set := known.setOrderIndexes (assignedOrderIndexes assignments)
  rw [twins.previousOrderIndexes]
  dsimp only
  generalize candidate.rememberCost.setOrderIndexes _ = inFirst at set ⊢
  generalize twin.rememberCost.setOrderIndexes _ = inSecond at set ⊢
  cases set with
  | intro changed outcome =>
    cases outcome with
    | error failure => exact .intro changed (.error failure)
    | ok done =>
      have presorted := (changed.setPresorted true).rememberCost
      dsimp only
      rw [known.currentCost, presorted.currentCost]
      split
      · exact .intro presorted (.ok true)
      · exact (presorted.setPresorted false).restoreOrderIndexes _

/-- The sort at the top of one tree is avoided exactly if that of the other is. -/
theorem replaceSort (twins : Twins candidate twin) (catalog : Catalog) :
    SameRun (candidate.replaceSort catalog) (twin.replaceSort catalog) := by
  rw [Candidate.replaceSort, Candidate.replaceSort]
  have trees := twins.trees
  generalize candidate.top = top at trees
  generalize twin.top = top' at trees
  cases trees with
  | visit | join | aggregate => exact .intro twins _
  | @sort input input' spec inputs =>
    dsimp only
    rw [twins.orderAssignments?]
    split
    · exact .intro twins _
    rename_i assignments _
    have known := twins.rememberCost
    have set := known.setOrderIndexes (assignedOrderIndexes assignments)
    rw [twins.previousOrderIndexes]
    generalize candidate.rememberCost.setOrderIndexes _ = inFirst at set ⊢
    generalize twin.rememberCost.setOrderIndexes _ = inSecond at set ⊢
    cases set with
    | @intro next other changed outcome =>
      cases outcome with
      | error failure => exact .intro changed (.error failure)
      | ok done =>
        dsimp only
        have changedTrees := changed.trees
        generalize next.top = nextTop at changedTrees ⊢
        generalize other.top = otherTop at changedTrees ⊢
        cases changedTrees with
        | visit | join | aggregate => exact .intro changed _
        | @sort below below' _ inputsAfter =>
          have sameCost := inputsAfter.cost fun _ _ => SameAccess.cost
          have unsorted : Twins { next with top := below, knownCost? := none }
              { other with top := below', knownCost? := none } := ⟨changed.order, rfl, inputsAfter⟩
          dsimp only
          rw [known.currentCost, sameCost]
          split
          · exact .intro unsorted (.ok true)
          · exact changed.restoreOrderIndexes _

theorem markLastVisit (twins : Twins candidate twin) :
    Alike Twins candidate.markLastVisit twin.markLastVisit := by
  rw [Candidate.markLastVisit, Candidate.markLastVisit, twins.order]
  split
  · exact .succeed twins
  · exact twins.modifyVisit _ fun _ _ same => same.setInnermost true

end Twins

/-- Evaluating visits that have the same conditions in different orders makes the candidates
twins. -/
theorem twins_of_evaluate {candidate next : Candidate} {top : JoinTree}
    (matched : Matched Visit.Shuffled candidate.top top)
    (ran : candidate.evaluate catalog = (next, .ok ())) :
    ∃ twin, ({ candidate with top } : Candidate).evaluate catalog = (twin, .ok ()) ∧
      Twins next twin := by
  rw [evaluate] at ran
  split at ran
  · rename_i evaluated
    cases ran
    obtain ⟨other, evaluatedToo, trees⟩ :=
      matched.evaluateVisits (fun _ _ shuffled => shuffled.evaluate catalog) evaluated
    refine ⟨{ candidate with top := other, knownCost? := none }, ?_, rfl, rfl, trees⟩
    rw [evaluate]
    dsimp only
    rw [evaluatedToo]
  · cases ran

end Candidate

namespace Planner

open Candidate (Twins)

variable {planner : Planner} {query : Query} {conditions : ConjunctTable}

/-- The query with another table of conditions. -/
def withConditions (query : Query) (conditions : ConjunctTable) : Query :=
  { query with conditions }

theorem Delivers.twin (twins : Twins ready other) (delivers : planner.Delivers ready planned) :
    ∃ twin, planner.Delivers other twin ∧ Twins planned twin := by
  rw [Delivers] at delivers
  split at delivers
  · rename_i wanted
    obtain ⟨_, grouped, _, sorted, presort, replaced, rfl⟩ := delivers
    obtain ⟨presorted, presortToo, afterPresort⟩ := (twins.presortInput _).of_ok presort
    obtain ⟨eliminated, replacedToo, afterReplace⟩ := (afterPresort.replaceSort _).of_ok replaced
    refine ⟨eliminated.rememberCost, ?_, afterReplace.rememberCost⟩
    rw [Delivers, if_pos wanted]
    exact ⟨presorted, grouped, eliminated, sorted, presortToo, replacedToo, rfl⟩
  · rename_i unwanted
    rw [delivers]
    refine ⟨other.rememberCost, ?_, twins.rememberCost⟩
    rw [Delivers, if_neg unwanted]

theorem Plans.twin {tree : JoinTree} (reordered : query.conditions.Reordered conditions)
    (plans : planner.Plans query tree planned) :
    ∃ twin, planner.Plans (withConditions query conditions) tree twin ∧ Twins planned twin := by
  obtain ⟨hinted, distributed, ready, ⟨hints, distribution, evaluation⟩, delivers⟩ := plans
  obtain ⟨top, distributionToo, matched⟩ :=
    Candidate.distributeConditions_reordered reordered distribution
  obtain ⟨other, evaluationToo, twins⟩ := Candidate.twins_of_evaluate matched evaluation
  obtain ⟨twin, deliversToo, finished⟩ := delivers.twin twins
  exact ⟨twin, ⟨hinted, _, other, ⟨hints, distributionToo, evaluationToo⟩, deliversToo⟩, finished⟩

/-- Join trees are planned alike for reordered conditions. -/
theorem planCandidate_reordered (reordered : query.conditions.Reordered conditions)
    (tree : JoinTree) : Alike Twins (planner.planCandidate query tree)
      (planner.planCandidate (withConditions query conditions) tree) := by
  cases inFirst : planner.planCandidate query tree with
  | ok planned =>
    obtain ⟨twin, plans, twins⟩ := (planCandidate_iff.mp inFirst).twin reordered
    rw [planCandidate_iff.mpr plans]
    exact .succeed twins
  | error failure =>
    cases inSecond : planner.planCandidate (withConditions query conditions) tree with
    | error other => exact .fail failure other
    | ok planned =>
      -- Reordering is symmetric, so the first run would have succeeded as well.
      have back : (withConditions query conditions).conditions.Reordered query.conditions :=
        reordered.symm
      obtain ⟨twin, plans, _⟩ := (planCandidate_iff.mp inSecond).twin back
      have succeeds : planner.planCandidate query tree = .ok twin := planCandidate_iff.mpr plans
      rw [inFirst] at succeeds
      cases succeeds

theorem cheaper_twins {best? other? : Option Candidate} {candidate twin : Candidate}
    (bests : Option.Rel Twins best? other?) (twins : Twins candidate twin) :
    Twins (cheaper best? candidate) (cheaper other? twin) := by
  cases bests with
  | none => exact twins
  | some same =>
    rw [cheaper, cheaper, twins.currentCost, same.currentCost]
    split
    · exact twins
    · exact same

theorem cheapestFrom_reordered (reordered : query.conditions.Reordered conditions)
    {best? other? : Option Candidate} (bests : Option.Rel Twins best? other?)
    (trees : List JoinTree) : Alike (Option.Rel Twins) (planner.cheapestFrom query best? trees)
      (planner.cheapestFrom (withConditions query conditions) other? trees) := by
  induction trees generalizing best? other? with
  | nil => exact .succeed bests
  | cons tree rest ih =>
    exact (planCandidate_reordered reordered tree).bind fun candidate twin twins =>
      ih (.some (cheaper_twins bests twins))

/-- The chosen candidates agree in everything but the conditions: in order and cost, in the sorts
and aggregations of their trees and in the way each visit is read. -/
structure SameChoice (chosen other : Candidate) : Prop where
  order : other.order = chosen.order
  cost : other.currentCost = chosen.currentCost
  trees : Matched SameAccess chosen.top other.top

/-- The choice does not depend on the order of the conjuncts: it fails for both queries, or the same
is chosen for both. -/
theorem choose_reordered (planner : Planner) (query : Query) (conditions : ConjunctTable)
    (reordered : query.conditions.Reordered conditions) :
    Alike SameChoice (planner.choose query)
      (planner.choose (withConditions query conditions)) := by
  rw [choose, choose]
  refine .bind_common _ fun extents => .bind_common _ fun _ => .bind_common _ fun trees => ?_
  refine (cheapestFrom_reordered reordered .none trees).bind fun best? other? bests => ?_
  cases bests with
  | none => exact .fail _ _
  | some twins =>
    refine twins.markLastVisit.bind fun last lastToo lasts => ?_
    have finished := lasts.rememberCost
    exact .succeed ⟨finished.order, finished.currentCost, finished.trees⟩

/-- Persons by number, with two conditions that each give a lookup. -/
def personByNumber (conditions : List Condition) : Query where
  tree := .visit (.unplanned 0 "Person")
  conditions := (ConjunctTable.empty.addAll conditions).1
  hints := .empty
  fetch := .none
  text := ""

def firstNumber : Condition := .compare .equal (.objectNumber 0) (.parameter 0)

def secondNumber : Condition := .compare .equal (.objectNumber 0) (.parameter 1)

def personPlanner : Planner :=
  ⟨⟨0, ⟨[⟨"Person", none⟩]⟩, [Catalog.defaultIndex "Person"]⟩, .standard, none⟩

/-- Either order of the conditions gives a lookup by number, each with the key that comes first. -/
theorem choose_reordered_numbers :
    (personByNumber [firstNumber, secondNumber]).conditions.Reordered
        (personByNumber [secondNumber, firstNumber]).conditions ∧
      ∃ chosen other,
        choose personPlanner (personByNumber [firstNumber, secondNumber]) = .ok chosen ∧
        choose personPlanner (personByNumber [secondNumber, firstNumber]) = .ok other ∧
        SameChoice chosen other ∧
        chosen.top.visits.map (·.identity?) = [some (.number, .parameter 0)] ∧
        other.top.visits.map (·.identity?) = [some (.number, .parameter 1)] := by
  have reordered : (personByNumber [firstNumber, secondNumber]).conditions.Reordered
      (personByNumber [secondNumber, firstNumber]).conditions :=
    .cons ⟨rfl, .swap _ _ _⟩ .nil
  have alike := choose_reordered personPlanner (personByNumber [firstNumber, secondNumber])
    (personByNumber [secondNumber, firstNumber]).conditions reordered
  refine ⟨reordered, _, _, rfl, rfl, ?_, rfl, rfl⟩
  cases alike with
  | succeed same => exact same

end Planner

end ExtentPlanner
