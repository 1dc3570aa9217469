import ExtentPlanner.Proofs.PresortedInput
import ExtentPlanner.Proofs.RememberedCost

/-! What the steps that avoid sorting leave behind when they find that it does not pay. The order
indexes that they tried are put back to what the visits had before, whatever has been done with the
candidate. The flag of a presorted aggregation is not put back but taken away: that is the same
unless an earlier call has set it. -/
namespace ExtentPlanner

namespace JoinTree

/-- Whether the aggregation at the top, or directly under a sort at the top, is told that its input
is presorted. -/
def topPresorted : JoinTree → Bool
  | aggregate _ presorted _ => presorted
  | sort _ (aggregate _ presorted _) => presorted
  | _ => false

theorem setPresorted_eq_self_iff (tree : JoinTree) :
    tree.setPresorted false = tree ↔ tree.topPresorted = false := by
  unfold setPresorted topPresorted
  split <;> simp [eq_comm]

theorem visitOrder_evaluateVisits (tree : JoinTree) (catalog : Catalog) :
    (tree.evaluateVisits catalog).1.visitOrder = tree.visitOrder := by
  induction tree with
  | visit leaf =>
    rw [evaluateVisits]
    split
    · rename_i ran
      exact congrArg (fun fresh => [fresh.extent]) (Visit.evaluate_keeps ran).1
    · rfl
  | join kind left right post lefts rights =>
    rw [evaluateVisits]
    split <;> rename_i onLeft <;> rw [onLeft] at lefts
    · exact congrArg₂ (· ++ ·) lefts rights
    · exact congrArg (· ++ right.visitOrder) lefts
  | sort spec input inputs => exact inputs
  | aggregate grouping presorted input inputs => exact inputs

end JoinTree

namespace Candidate

variable {candidate next : Candidate} {catalog : Catalog}

/-! ## What no operation changes -/

theorem sameOrder_distributeHints (candidate : Candidate) (hints : List IndexHint) :
    SameOrder candidate (candidate.distributeHints catalog hints).1 := by
  induction hints generalizing candidate with
  | nil => exact .refl candidate
  | cons hint rest ih =>
    rw [distributeHints]
    split
    · rename_i position index _
      have hinted : SameOrder candidate (candidate.modifyAt position (·.hint index)) := by
        refine ⟨(JoinTree.mapVisits_pointwise _ _).visitOrder ?_, rfl, rfl⟩
        rintro before after ⟨place, rfl⟩
        split <;> rfl
      exact hinted.trans (ih _)
    · exact .refl candidate

theorem sameOrder_distributeConditions (candidate : Candidate) (table : ConjunctTable) :
    SameOrder candidate (candidate.distributeConditions table).1 := by
  rw [distributeConditions]
  dsimp only
  split
  · exact .refl candidate
  · rename_i placement _
    have visited : (candidate.top.mapVisits fun position visit =>
        visit.addConditions (placement.conditionsAt position)).visitOrder =
          candidate.top.visitOrder := by
      refine (JoinTree.mapVisits_pointwise _ _).visitOrder ?_
      rintro before after ⟨place, rfl⟩
      rfl
    have attached := (JoinTree.matched_attachPostFilters (candidate.top.mapVisits
      fun position visit => visit.addConditions (placement.conditionsAt position))
      placement.postFilters).visitOrder fun _ _ same => by rw [same]
    split <;> rename_i ran <;> rw [ran] at attached <;> exact ⟨attached.trans visited, rfl, rfl⟩

theorem sameOrder_evaluate (candidate : Candidate) (catalog : Catalog) :
    SameOrder candidate (candidate.evaluate catalog).1 := by
  have visited := candidate.top.visitOrder_evaluateVisits catalog
  rw [evaluate]
  split <;> rename_i ran <;> rw [ran] at visited <;> exact ⟨visited, rfl, rfl⟩

/-- No operation, whether it fails or not, changes which extents are visited in which order. -/
theorem sameOrder_perform (candidate : Candidate) (operation : Operation) :
    SameOrder candidate (candidate.perform operation) := by
  cases operation with
  | distributeHints catalog hints => exact candidate.sameOrder_distributeHints hints
  | distributeConditions table => exact candidate.sameOrder_distributeConditions table
  | evaluate catalog => exact candidate.sameOrder_evaluate catalog
  | presortInput catalog => exact candidate.sameOrder_presortInput catalog
  | replaceSort catalog => exact candidate.sameOrder_replaceSort catalog
  | markLastVisit =>
    rw [perform]
    split
    · rename_i ran
      exact sameOrder_markLastVisit ran
    · exact .refl candidate
  | askCost => exact candidate.sameOrder_rememberCost

theorem sameOrder_performed (candidate : Candidate) (operations : List Operation) :
    SameOrder candidate (operations.foldl perform candidate) := by
  induction operations generalizing candidate with
  | nil => exact .refl candidate
  | cons operation rest ih => exact (candidate.sameOrder_perform operation).trans (ih _)

/-! ## Refusals -/

/-- The tree, the order and the positions are what they were; the cost may be forgotten. -/
structure Untouched (before after : Candidate) : Prop where
  top : after.top = before.top
  order : after.order = before.order
  positions : after.positions = before.positions

/-- An aggregation near the top is presorted although its grouping could be delivered again. -/
structure PresortsAgain (candidate : Candidate) (catalog : Catalog) : Prop where
  presorted : candidate.top.topPresorted = true
  deliverable : ∃ grouping required, candidate.top.topGrouping? = some grouping ∧
    candidate.Deliverable catalog grouping.groupBy required

theorem replaceSort_refused (distinct : candidate.top.visitOrder.Nodup)
    (ran : candidate.replaceSort catalog = (next, .ok false)) : Untouched candidate next := by
  rcases replaceSort_cases distinct catalog with ⟨_, refused⟩ | ⟨_, _, _, _, _, done⟩
  · cases refused.symm.trans ran
    exact ⟨rfl, rfl, rfl⟩
  · cases done.symm.trans ran

/-- Refusing to presort leaves the tree as it is or takes back the flag of an aggregation. -/
theorem presortInput_refused (distinct : candidate.top.visitOrder.Nodup)
    (visited : candidate.order = candidate.top.visitOrder)
    (ran : candidate.presortInput catalog = (next, .ok false)) :
    (Untouched candidate next ↔ ¬candidate.PresortsAgain catalog) ∧
      (candidate.PresortsAgain catalog → Untouched (candidate.setPresorted false) next) := by
  rcases presortInput_outcomes distinct catalog with
    ⟨missing, refused⟩ | ⟨grouping, required, _, grouped, deliverable, refused | done⟩
  · cases refused.symm.trans ran
    have never : ¬candidate.PresortsAgain catalog := by
      rintro ⟨_, grouping, required, grouped, deliverable⟩
      have found := deliverable.assigned visited
      rw [missing grouping grouped] at found
      cases found
    exact ⟨iff_of_true ⟨rfl, rfl, rfl⟩ never, fun again => absurd again never⟩
  · cases refused.symm.trans ran
    refine ⟨?_, fun _ => ⟨rfl, rfl, rfl⟩⟩
    constructor
    · intro untouched again
      have unflagged := candidate.top.setPresorted_eq_self_iff.mp untouched.top
      rw [again.presorted] at unflagged
      cases unflagged
    · intro never
      refine ⟨candidate.top.setPresorted_eq_self_iff.mpr ?_, rfl, rfl⟩
      rw [Bool.eq_false_iff]
      exact fun presorted => never ⟨presorted, grouping, required, grouped, deliverable⟩
  · cases done.symm.trans ran

/-- Whatever has been done with a candidate, a refusal to take away a sort leaves nothing behind. A
refusal to presort leaves nothing behind exactly if there is no presorted aggregation that could be
presorted again; otherwise the aggregation is told that its input is not presorted, and nothing else
changes. -/
theorem refusal_untouched_iff (tree : JoinTree) (distinct : tree.visitOrder.Nodup)
    (operations : List Operation) (catalog : Catalog) (next : Candidate) :
    let reached := operations.foldl perform (ofTree tree)
    (reached.replaceSort catalog = (next, .ok false) → Untouched reached next) ∧
      (reached.presortInput catalog = (next, .ok false) →
        (Untouched reached next ↔ ¬reached.PresortsAgain catalog) ∧
        (reached.PresortsAgain catalog → Untouched (reached.setPresorted false) next)) := by
  intro reached
  have same : SameOrder (ofTree tree) reached := sameOrder_performed _ operations
  have stillDistinct : reached.top.visitOrder.Nodup := same.visited ▸ distinct
  exact ⟨replaceSort_refused stillDistinct,
    presortInput_refused stillDistinct (same.order.trans same.visited.symm)⟩

open Planner (cityCatalog perCity)

/-- Persons per city, told to be presorted. -/
def unindexedPerCity : JoinTree := .aggregate perCity true personVisit

/-- Without an index the flag stays what it is. -/
theorem refusal_untouched_unindexed :
    let candidate := [.evaluate people, .askCost].foldl perform (ofTree unindexedPerCity)
    candidate.replaceSort people = (candidate, .ok false) ∧
      candidate.presortInput people = (candidate, .ok false) ∧
      candidate.top.topPresorted = true ∧ ¬candidate.PresortsAgain people ∧
      Untouched candidate candidate := by
  intro candidate
  have untouched := refusal_untouched_iff unindexedPerCity (by decide)
    [.evaluate people, .askCost] people candidate
  have same : Untouched candidate candidate := untouched.1 rfl
  exact ⟨rfl, rfl, rfl, (untouched.2 rfl).1.mp same, same⟩

/-- Persons per city, ready to be presorted. -/
def evaluatedPerCity : Candidate :=
  (ofTree (.aggregate perCity false personVisit)).perform (.evaluate cityCatalog)

/-- Persons per city that have been told to come by city. -/
def presortedPerCity : JoinTree :=
  (evaluatedPerCity.top.setPresorted true).updateEach (deliver cityCatalog perCity.groupBy [0])

/-- Presorting that succeeds makes a candidate that loses its flag when it is presorted again. -/
theorem flag_lost_by_presorting_again :
    (∀ next, evaluatedPerCity.presortInput cityCatalog = (next, .ok true) →
      next = (ofTree presortedPerCity).perform .askCost) ∧
    ∃ next, ((ofTree presortedPerCity).perform .askCost).presortInput cityCatalog =
        (next, .ok false) ∧
      presortedPerCity.topPresorted = true ∧ next.top = presortedPerCity.setPresorted false ∧
      next.top.topPresorted = false := by
  refine ⟨fun next ran => ?_, _, rfl, rfl, rfl, rfl⟩
  have tried : evaluatedPerCity.presortInput cityCatalog =
      if presortedPerCity.cost < evaluatedPerCity.top.cost then
        ((ofTree presortedPerCity).perform .askCost, .ok true)
      else ((evaluatedPerCity.setPresorted false).forgetCost, .ok false) := rfl
  rw [tried] at ran
  split at ran <;> cases ran
  rfl

end Candidate

end ExtentPlanner
