import ExtentPlanner.Proofs.Histories
import ExtentPlanner.Proofs.MatchedTrees
import ExtentPlanner.Proofs.PlannedVisits

/-! What a candidate remembers of its cost. A cost is computed when it is asked for and kept until
the tree changes, so it has to be forgotten by every operation that may change what the tree costs.
Handing out conditions and marking the last visit change no cost; presorting and avoiding a sort
forget it on each of their ways. Handing out index hints and an evaluation that fails do not forget
it, although they may give visits other access paths. The main theorem says that these are the only
ways to a wrong cost. -/
namespace ExtentPlanner

namespace JoinTree

theorem cost_updateEach {tree : JoinTree} {change : Visit → Visit}
    (same : ∀ leaf ∈ tree.visits, (change leaf).cost = leaf.cost) :
    (tree.updateEach change).cost = tree.cost := by
  induction tree with
  | visit leaf => simpa [cost, visits] using same
  | join kind left right post lefts rights =>
    have onLeft := lefts fun leaf member => same leaf (List.mem_append_left _ member)
    have onRight := rights fun leaf member => same leaf (List.mem_append_right _ member)
    rw [updateEach_join, cost, cost, onLeft, onRight]
  | sort spec input inputs => rw [updateEach_sort, cost, cost, inputs same]
  | aggregate grouping presorted input inputs =>
    rw [updateEach_aggregate, cost, cost, inputs same]

end JoinTree

namespace Candidate

variable {candidate next : Candidate} {catalog : Catalog}

/-- If the candidate remembers a cost, it is that of its tree. -/
def Exact (candidate : Candidate) : Prop :=
  ∀ cost, candidate.knownCost? = some cost → cost = candidate.top.cost

/-- A candidate is exact if it answers the cost of its tree when it is asked. -/
theorem exact_iff : candidate.Exact ↔ candidate.currentCost = candidate.top.cost := by
  rw [Exact, currentCost]
  cases candidate.knownCost? with
  | none => simp
  | some known => simp

theorem Exact.currentCost (exact : candidate.Exact) :
    candidate.currentCost = candidate.top.cost := exact_iff.mp exact

theorem exact_of_unknown (unknown : candidate.knownCost? = none) : candidate.Exact := by
  intro cost known
  rw [unknown] at known
  cases known

theorem Exact.remembers (exact : candidate.Exact) :
    candidate.rememberCost.knownCost? = some candidate.rememberCost.top.cost :=
  congrArg some exact.currentCost

theorem Exact.rememberCost (exact : candidate.Exact) : candidate.rememberCost.Exact := by
  intro cost known
  rw [exact.remembers] at known
  exact (Option.some.inj known).symm

/-- If the remembered cost is kept, it stays that of the tree unless the tree costs something
else now. -/
theorem Exact.kept_iff (exact : candidate.Exact) (kept : next.knownCost? = candidate.knownCost?) :
    next.Exact ↔ ¬(candidate.knownCost?.isSome ∧ next.top.cost ≠ candidate.top.cost) := by
  rw [Exact, kept]
  cases known : candidate.knownCost? with
  | none => simp
  | some cost => simp [exact cost known, eq_comm]

theorem Exact.kept (exact : candidate.Exact) (kept : next.knownCost? = candidate.knownCost?)
    (same : next.top.cost = candidate.top.cost) : next.Exact :=
  (exact.kept_iff kept).mpr fun changed => changed.2 same

/-! ## Hints, conditions and evaluation -/

theorem distributeHints_knownCost? (candidate : Candidate) (hints : List IndexHint) :
    (candidate.distributeHints catalog hints).1.knownCost? = candidate.knownCost? := by
  induction hints generalizing candidate with
  | nil => rfl
  | cons hint rest ih =>
    rw [distributeHints]
    split
    · rw [ih]
      rfl
    · rfl

theorem distributeConditions_knownCost? (candidate : Candidate) (table : ConjunctTable) :
    (candidate.distributeConditions table).1.knownCost? = candidate.knownCost? := by
  rw [distributeConditions]
  dsimp only
  split
  · rfl
  · split <;> rfl

/-- No access path costs more or less because of the conditions that are evaluated there. -/
theorem distributeConditions_cost (candidate : Candidate) (table : ConjunctTable) :
    (candidate.distributeConditions table).1.top.cost = candidate.top.cost := by
  rw [distributeConditions]
  dsimp only
  split
  · rfl
  · rename_i placement _
    have visited := (candidate.top.mapVisits_pointwise fun position visit =>
      visit.addConditions (placement.conditionsAt position)).matched
    have sameCost := visited.cost fun before after given => by
      obtain ⟨_, rfl⟩ := given
      rfl
    have attached := (JoinTree.matched_attachPostFilters (candidate.top.mapVisits
      fun position visit => visit.addConditions (placement.conditionsAt position))
      placement.postFilters).cost fun before after same => by rw [same]
    split <;> rename_i ran <;> rw [ran] at attached <;> exact attached.trans sameCost

theorem evaluate_knownCost? {failure : PlanError}
    (failed : (candidate.evaluate catalog).2 = .error failure) :
    (candidate.evaluate catalog).1.knownCost? = candidate.knownCost? := by
  rw [evaluate] at failed ⊢
  split at failed
  · cases failed
  · rfl

/-- An evaluation that succeeds forgets the cost. -/
theorem evaluate_exact (ran : candidate.evaluate catalog = (next, .ok ())) : next.Exact := by
  rw [evaluate] at ran
  split at ran
  · cases ran
    exact exact_of_unknown rfl
  · cases ran

/-! ## Setting order indexes -/

/-- Order indexes can be set for all extents that are visited. Then the cost is forgotten, and the
same extents are visited. -/
theorem setOrderIndexes_succeeds {settings : List (Nat × Option IndexUse)}
    (visited : ∀ setting ∈ settings, (candidate.visit? setting.1).isSome) :
    ∃ next, candidate.setOrderIndexes settings = (next, .ok ()) ∧ next.knownCost? = none ∧
      ∀ extent, (next.visit? extent).isSome = (candidate.visit? extent).isSome := by
  induction settings generalizing candidate with
  | nil => exact ⟨candidate.forgetCost, rfl, rfl, fun _ => rfl⟩
  | cons setting rest ih =>
    obtain ⟨here, others⟩ := List.forall_mem_cons.mp visited
    rw [setOrderIndexes, modifyVisit]
    cases modified : candidate.top.modifyVisit? setting.1 (·.setOrderIndex setting.2) with
    | none =>
      rw [Candidate.visit?, JoinTree.visit?_none_of_modifyVisit? modified] at here
      cases here
    | some top =>
      have extents := JoinTree.modifyVisit?_extents modified fun _ => rfl
      have same := extents.visit?_isSome fun _ _ => id
      obtain ⟨next, ran, forgotten, later⟩ := @ih { candidate with top } fun setting member =>
        (same setting.1).trans (others setting member)
      exact ⟨next, ran, forgotten, fun extent => (later extent).trans (same extent)⟩

/-- The order indexes that were found can be set and put back, each time forgetting the cost. -/
theorem assigned_and_restored {assignments : List OrderAssignment} {known : Candidate}
    (found : candidate.orderAssignments? catalog spec = some assignments)
    (sameTop : known.top = candidate.top) :
    ∃ changed, known.setOrderIndexes (assignedOrderIndexes assignments) = (changed, .ok ()) ∧
      changed.knownCost? = none ∧ ∀ other : Candidate,
        (∀ extent, (other.visit? extent).isSome = (changed.visit? extent).isSome) →
        (other.restoreOrderIndexes (candidate.previousOrderIndexes assignments)).1.Exact := by
  have visited : ∀ assignment ∈ assignments, (candidate.visit? assignment.extent).isSome := by
    intro assignment listed
    obtain ⟨visit, here, _⟩ := visit_of_assigned found assignment listed
    exact Option.isSome_iff_exists.mpr ⟨visit, here⟩
  have knownVisits : ∀ setting ∈ assignedOrderIndexes assignments,
      (known.visit? setting.1).isSome := by
    intro setting member
    obtain ⟨assignment, listed, rfl⟩ := List.mem_map.mp member
    rw [Candidate.visit?, sameTop]
    exact visited assignment listed
  obtain ⟨changed, ran, forgotten, same⟩ := setOrderIndexes_succeeds knownVisits
  refine ⟨changed, ran, forgotten, fun other visits => ?_⟩
  have previousVisits : ∀ setting ∈ candidate.previousOrderIndexes assignments,
      (other.visit? setting.1).isSome := by
    intro setting member
    obtain ⟨assignment, listed, rfl⟩ := List.mem_map.mp member
    rw [visits, same, Candidate.visit?, sameTop]
    exact visited assignment listed
  obtain ⟨restored, back, forgottenAgain, _⟩ := setOrderIndexes_succeeds previousVisits
  rw [restoreOrderIndexes, back]
  exact exact_of_unknown forgottenAgain

/-- Presorting leaves an exact cost, whether the input is presorted or not. -/
theorem presortInput_exact (exact : candidate.Exact) (catalog : Catalog) :
    (candidate.presortInput catalog).1.Exact := by
  rw [presortInput]
  split
  · exact exact
  split
  · exact exact
  rename_i assignments found
  obtain ⟨changed, ran, forgotten, restores⟩ :=
    assigned_and_restored found (rfl : candidate.rememberCost.top = candidate.top)
  dsimp only
  rw [ran]
  dsimp only
  split
  · -- The flag changes the cost of the tree, but none is remembered when it is set.
    have flagged : (changed.setPresorted true).Exact := exact_of_unknown forgotten
    exact flagged.rememberCost
  · refine restores _ fun extent => ?_
    simp only [Candidate.visit?, setPresorted, Candidate.rememberCost,
      JoinTree.visit?_setPresorted]

/-- Avoiding the sort at the top leaves an exact cost, whether the sort is gone or not. -/
theorem replaceSort_exact (exact : candidate.Exact) (catalog : Catalog) :
    (candidate.replaceSort catalog).1.Exact := by
  rw [replaceSort]
  split
  swap
  · exact exact
  split
  · exact exact
  rename_i assignments found
  obtain ⟨changed, ran, forgotten, restores⟩ :=
    assigned_and_restored found (rfl : candidate.rememberCost.top = candidate.top)
  dsimp only
  rw [ran]
  dsimp only
  split
  · split
    · exact exact_of_unknown rfl
    · exact restores changed fun _ => rfl
  · exact exact_of_unknown forgotten

/-! ## The last visit -/

theorem markLastVisit_kept (ran : candidate.markLastVisit = .ok next) :
    next.knownCost? = candidate.knownCost? ∧ next.top.cost = candidate.top.cost := by
  obtain ⟨top, rfl, paired⟩ :=
    @markLastVisit_related _ _ (fun before after => after.extent = before.extent ∧
      after.cost = before.cost) (fun _ => ⟨rfl, rfl⟩) (fun _ _ => And.left)
      (by intro _ _ same; exact same) ran
  exact ⟨rfl, paired.matched.cost fun _ _ => And.right⟩

/-! ## Operations -/

/-- What can be asked of a candidate. -/
inductive Operation where
  | distributeHints (catalog : Catalog) (hints : List IndexHint)
  | distributeConditions (table : ConjunctTable)
  | evaluate (catalog : Catalog)
  | presortInput (catalog : Catalog)
  | replaceSort (catalog : Catalog)
  | markLastVisit
  | askCost

/-- The candidate that an operation leaves behind, also when it fails. -/
def perform (candidate : Candidate) : Operation → Candidate
  | .distributeHints catalog hints => (candidate.distributeHints catalog hints).1
  | .distributeConditions table => (candidate.distributeConditions table).1
  | .evaluate catalog => (candidate.evaluate catalog).1
  | .presortInput catalog => (candidate.presortInput catalog).1
  | .replaceSort catalog => (candidate.replaceSort catalog).1
  | .markLastVisit =>
    match candidate.markLastVisit with
    | .ok marked => marked
    | .error _ => candidate
  | .askCost => candidate.rememberCost

/-- Whether an operation may change access paths without forgetting the cost. -/
def Operation.Unforgetful (candidate : Candidate) : Operation → Prop
  | .distributeHints .. => True
  | .evaluate catalog => ∃ failure, (candidate.evaluate catalog).2 = .error failure
  | .distributeConditions .. | .presortInput .. | .replaceSort .. | .markLastVisit | .askCost =>
    False

/-- A remembered cost is kept while the tree comes to cost something else. -/
structure Overlooks (candidate : Candidate) (operation : Operation) : Prop where
  remembers : candidate.knownCost?.isSome
  unforgetful : operation.Unforgetful candidate
  changes : (candidate.perform operation).top.cost ≠ candidate.top.cost

/-- An operation on an exact candidate leaves an exact one unless it overlooks a change. -/
theorem perform_exact_iff (exact : candidate.Exact) (operation : Operation) :
    (candidate.perform operation).Exact ↔ ¬candidate.Overlooks operation := by
  have harmless : (candidate.perform operation).Exact → ¬operation.Unforgetful candidate →
      ((candidate.perform operation).Exact ↔ ¬candidate.Overlooks operation) :=
    fun stays forgetful => iff_of_true stays fun overlooks => forgetful overlooks.unforgetful
  have careless : (candidate.perform operation).knownCost? = candidate.knownCost? →
      operation.Unforgetful candidate →
      ((candidate.perform operation).Exact ↔ ¬candidate.Overlooks operation) := by
    intro kept unforgetful
    rw [exact.kept_iff kept, not_iff_not]
    exact ⟨fun changed => ⟨changed.1, unforgetful, changed.2⟩,
      fun overlooks => ⟨overlooks.remembers, overlooks.changes⟩⟩
  cases operation with
  | distributeHints catalog hints =>
    exact careless (candidate.distributeHints_knownCost? hints) trivial
  | distributeConditions table =>
    exact harmless (exact.kept (candidate.distributeConditions_knownCost? table)
      (candidate.distributeConditions_cost table)) not_false
  | evaluate catalog =>
    cases outcome : (candidate.evaluate catalog).2 with
    | error failure => exact careless (evaluate_knownCost? outcome) ⟨failure, outcome⟩
    | ok done =>
      refine harmless (evaluate_exact (Prod.ext rfl outcome)) ?_
      rintro ⟨failure, failed⟩
      rw [outcome] at failed
      cases failed
  | presortInput catalog => exact harmless (presortInput_exact exact catalog) not_false
  | replaceSort catalog => exact harmless (replaceSort_exact exact catalog) not_false
  | markLastVisit =>
    refine harmless ?_ not_false
    rw [perform]
    split
    · rename_i marked ran
      obtain ⟨kept, same⟩ := markLastVisit_kept ran
      exact exact.kept kept same
    · exact exact
  | askCost => exact harmless exact.rememberCost not_false

/-- The candidates that operations lead to, one after the other, are exact as long as no operation
overlooks a change. -/
theorem performed_exact_iff (exact : candidate.Exact) (operations : List Operation) :
    (∀ before, before <+: operations → (before.foldl perform candidate).Exact) ↔
      ¬Happens perform Overlooks candidate operations := by
  induction operations generalizing candidate with
  | nil =>
    refine iff_of_true (fun before first => ?_) not_happens_nil
    rw [List.prefix_nil.mp first]
    exact exact
  | cons operation rest ih =>
    rw [happens_cons, not_or, ← perform_exact_iff exact operation]
    constructor
    · intro each
      have next : (candidate.perform operation).Exact := each [operation] (by simp)
      exact ⟨next, (ih next).mp fun before first =>
        each (operation :: before) ((List.prefix_cons_inj operation).mpr first)⟩
    · rintro ⟨next, never⟩ before first
      cases before with
      | nil => exact exact
      | cons head before =>
        obtain ⟨rfl, others⟩ := List.cons_prefix_cons.mp first
        exact (ih next).mpr never before others

/-- Whatever is done with a new candidate, it answers the cost of its tree all the time exactly if
no operation meets a remembered cost and changes the access paths to those of another cost without
forgetting it. -/
theorem answers_cost_iff (tree : JoinTree) (operations : List Operation) :
    (∀ before, before <+: operations →
        (before.foldl perform (ofTree tree)).currentCost =
          (before.foldl perform (ofTree tree)).top.cost) ↔
      ¬Happens perform Overlooks (ofTree tree) operations := by
  simp only [← exact_iff]
  exact performed_exact_iff (exact_of_unknown rfl) operations

/-- A class with its default index. -/
def people : Catalog := ⟨0, ⟨[⟨"Person", none⟩]⟩, [Catalog.defaultIndex "Person"]⟩

def personVisit : JoinTree := .visit (.unplanned 0 "Person")

def hintPersonIndex : Operation := .distributeHints people [⟨0, "Person.auto"⟩]

/-- A hint that is handed out before the cost is asked for does no harm. -/
theorem answers_cost_hinted_first : ∀ before,
    before <+: [hintPersonIndex, .evaluate people, .askCost, .markLastVisit] →
      (before.foldl perform (ofTree personVisit)).currentCost =
        (before.foldl perform (ofTree personVisit)).top.cost := by
  refine (answers_cost_iff personVisit _).mpr ?_
  have unknown : ¬(ofTree personVisit).Overlooks hintPersonIndex := fun overlooks =>
    absurd overlooks.remembers (by decide)
  have unknownStill : ¬((ofTree personVisit).perform hintPersonIndex).Overlooks
      (.evaluate people) := fun overlooks => absurd overlooks.remembers (by decide)
  simp only [happens_cons, not_or]
  exact ⟨unknown, unknownStill, fun asked => asked.unforgetful, fun marked => marked.unforgetful,
    not_happens_nil⟩

/-- A scan that was asked for its cost and then gets a hint answers what it cost before. -/
theorem stale_cost_hinted_later :
    let hinted := [Operation.askCost, hintPersonIndex].foldl perform (ofTree personVisit)
    hinted.currentCost = extentScanCost ∧ hinted.top.cost = indexScanCost ∧
      hinted.currentCost ≠ hinted.top.cost := by
  refine ⟨rfl, rfl, ?_⟩
  decide

end Candidate

end ExtentPlanner
