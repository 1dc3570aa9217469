import ExtentPlanner.Proofs.ConditionPlacement
import ExtentPlanner.Proofs.JoinOrderTrees
import ExtentPlanner.Proofs.OrderedScanSteps
import ExtentPlanner.Proofs.VisitEvaluation

/-! The steps of planning one candidate. It is ready once hints and conditions have been handed out
and the visits evaluated; then it may deliver orders, and the last visit of a chosen candidate is
marked. What the visits and joins of a candidate hold of the query's conditions is settled when it
becomes ready and survives every later step. -/
namespace ExtentPlanner

/-- The visits of a tree are ready to take access paths for conditions which, with those that wait
at its joins, are the conditions of the table. -/
def JoinTree.Holds (catalog : Catalog) (table : ConjunctTable) (tree : JoinTree) : Prop :=
  ∃ givens : List (List Condition),
    List.Forall₂ (fun given visit => visit.Prepared catalog given) givens tree.visits ∧
      (givens.flatten ++ tree.posts.flatten).Perm table.conditions

namespace Candidate

variable {candidate next : Candidate} {catalog : Catalog} {table : ConjunctTable} {tree : JoinTree}

/-! ## Hints -/

/-- A visit that was at most given a hint, and one that allows to scan its class. -/
def Hinted (catalog : Catalog) (before after : Visit) : Prop :=
  ∃ hinted?, after = { before with hintedIndex? := hinted? } ∧ ∀ index, hinted? = some index →
    before.hintedIndex? = some index ∨ catalog.canScan index before.typeName = true

private theorem Hinted.refl (catalog : Catalog) (visit : Visit) : Hinted catalog visit visit :=
  ⟨visit.hintedIndex?, rfl, fun _ => .inl⟩

private theorem Hinted.trans {before middle after : Visit} (first : Hinted catalog before middle)
    (second : Hinted catalog middle after) : Hinted catalog before after := by
  obtain ⟨_, rfl, firstScans⟩ := first
  obtain ⟨hinted?, rfl, secondScans⟩ := second
  exact ⟨hinted?, rfl, fun index same => (secondScans index same).elim (firstScans index) .inr⟩

theorem resolveHint_ok (ran : candidate.resolveHint catalog hint = .ok (position, index)) :
    catalog.find? hint.index = some index ∧ ∃ visit,
      candidate.top.visits[position]? = some visit ∧
      catalog.canScan index visit.typeName = true := by
  rw [resolveHint] at ran
  split at ran
  · cases ran
  · rename_i named
    dsimp only at ran
    split at ran
    · cases ran
    · rename_i place visit visited
      split at ran
      · rename_i scans
        cases ran
        obtain ⟨there, _, found⟩ := Option.bind_eq_some_iff.mp visited
        obtain ⟨_, inside, same⟩ := Option.map_eq_some_iff.mp found
        cases same
        exact ⟨named, visit, inside, scans⟩
      · cases ran

private theorem modifyAt_hinted (visited : candidate.top.visits[position]? = some visit)
    (scans : catalog.canScan index visit.typeName = true) :
    List.Forall₂ (Hinted catalog) candidate.top.visits
      (candidate.modifyAt position (·.hint index)).top.visits := by
  rw [modifyAt, JoinTree.visits_mapVisits, List.forall₂_iff_get]
  refine ⟨by simp, fun place inside _ => ?_⟩
  simp only [List.get_eq_getElem, List.getElem_mapIdx]
  split
  · rename_i here
    subst here
    obtain ⟨_, rfl⟩ := List.getElem?_eq_some_iff.mp visited
    refine ⟨_, rfl, fun other same => ?_⟩
    rcases Option.or_eq_some_iff.mp same with before | ⟨_, new⟩
    · exact .inl before
    · cases new
      exact .inr scans
  · exact .refl catalog _

/-- Handing out hints changes hints only, and hints only indexes that have all objects of the
class. -/
theorem distributeHints_ok {hints : List IndexHint}
    (ran : candidate.distributeHints catalog hints = (next, .ok ())) :
    List.Forall₂ (Hinted catalog) candidate.top.visits next.top.visits ∧
      next.top.posts = candidate.top.posts ∧ next.top.outline = candidate.top.outline ∧
        next.order = candidate.order := by
  induction hints generalizing candidate with
  | nil =>
    cases ran
    exact ⟨List.forall₂_same.mpr fun visit _ => .refl catalog visit, rfl, rfl, rfl⟩
  | cons hint rest ih =>
    rw [distributeHints] at ran
    split at ran
    · rename_i position index resolved
      obtain ⟨_, visit, visited, scans⟩ := resolveHint_ok resolved
      obtain ⟨later, posts, outline, order⟩ := ih ran
      have paired := JoinTree.mapVisits_pointwise candidate.top fun place visit =>
        if place = position then visit.hint index else visit
      refine ⟨?_, posts.trans paired.posts, outline.trans (paired.outline ?_), order⟩
      · exact JoinTree.forall₂_trans (modifyAt_hinted visited scans) later
          fun _ _ _ first second => first.trans second
      · rintro before after ⟨place, rfl⟩
        split <;> rfl
    · cases ran

/-! ## A candidate that is ready -/

/-- A candidate for the join order `tree` whose visits have been evaluated and none of which has
been told to deliver an order. -/
structure Ready (catalog : Catalog) (table : ConjunctTable) (tree : JoinTree)
    (candidate : Candidate) : Prop where
  order : candidate.order = tree.visitOrder
  outline : candidate.top.outline = tree
  unordered : ∀ visit ∈ candidate.top.visits, visit.orderIndex? = none
  scanned : ∀ visit ∈ candidate.top.visits, catalog.hierarchy.contains visit.typeName = true ∧
    visit.scanIndex? = catalog.scanIndex? visit.typeName
  holds : catalog.hierarchy.Distinct → candidate.top.Holds catalog table

theorem Ready.visitOrder (ready : Ready catalog table tree candidate) :
    candidate.top.visitOrder = tree.visitOrder := by
  rw [← JoinTree.outline_visitOrder, ready.outline]

/-- A visit that has been given a hint and conditions, but has not been evaluated. -/
private structure Given (catalog : Catalog) (visit : Visit) : Prop where
  unevaluated : visit.Unevaluated
  unmarked : visit.innermost = false
  hinted : ∀ index, visit.hintedIndex? = some index → catalog.canScan index visit.typeName = true

private theorem given_of_hinted {before after : Visit} (fresh : before.fresh = before)
    (hinted : Hinted catalog before after) (conditions : List Condition) :
    Given catalog (after.addConditions conditions) := by
  obtain ⟨hinted?, rfl, scans⟩ := hinted
  rw [← fresh] at scans ⊢
  exact ⟨⟨rfl, rfl, rfl, rfl, rfl⟩, rfl, fun index same => (scans index same).resolve_left (by
    simp [Visit.fresh, Visit.unplanned])⟩

private theorem evaluate_ok (ran : candidate.evaluate catalog = (next, .ok ())) :
    JoinTree.Pointwise (fun before after => before.evaluate catalog = .ok after)
      candidate.top next.top ∧ next.order = candidate.order := by
  rw [evaluate] at ran
  split at ran
  · rename_i evaluated
    cases ran
    exact ⟨JoinTree.evaluateVisits_pointwise evaluated, rfl⟩
  · cases ran

private theorem addConditions_given {hinted : JoinTree}
    (fresh : ∀ visit ∈ tree.visits, visit.fresh = visit)
    (hints : List.Forall₂ (Hinted catalog) tree.visits hinted.visits)
    (given : Nat → List Condition) :
    ∀ visit ∈ (hinted.mapVisits fun position visit => visit.addConditions (given position)).visits,
      Given catalog visit := by
  intro visit member
  obtain ⟨before, inside, place, rfl⟩ :=
    JoinTree.forall₂_partner (JoinTree.mapVisits_pointwise _ _).visits member
  obtain ⟨bare, first, hint⟩ := JoinTree.forall₂_partner hints inside
  exact given_of_hinted (fresh bare first) hint _

/-- The first three steps of planning a join order: hints are handed out, then conditions, and the
visits are evaluated. -/
structure Prepares (catalog : Catalog) (indexHints : List IndexHint) (table : ConjunctTable)
    (tree : JoinTree) (hinted distributed ready : Candidate) : Prop where
  hints : (ofTree tree).distributeHints catalog indexHints = (hinted, .ok ())
  conditions : hinted.distributeConditions table = (distributed, .ok ())
  evaluation : distributed.evaluate catalog = (ready, .ok ())

variable {hinted distributed ready : Candidate} {indexHints : List IndexHint}

theorem Prepares.hinted_order
    (prepares : Prepares catalog indexHints table tree hinted distributed ready) :
    hinted.order = tree.visitOrder ∧ hinted.top.visitOrder = tree.visitOrder := by
  obtain ⟨_, _, outline, order⟩ := distributeHints_ok prepares.hints
  refine ⟨order, ?_⟩
  rw [← JoinTree.outline_visitOrder, outline, JoinTree.outline_visitOrder, ofTree]

/-- No conditions have been handed out together with the hints. -/
theorem Prepares.hinted_bare
    (prepares : Prepares catalog indexHints table tree hinted distributed ready)
    (ordered : JoinTree.JoinOrder query tree) :
    (∀ visit ∈ hinted.top.visits, visit.conditions = []) ∧ hinted.top.posts.flatten = [] := by
  obtain ⟨visits, posts, _, _⟩ := distributeHints_ok prepares.hints
  refine ⟨fun visit member => ?_, ?_⟩
  · obtain ⟨bare, first, _, rfl, _⟩ := JoinTree.forall₂_partner visits member
    rw [← (ordered.fresh_visit first).1]
    rfl
  · rw [posts]
    exact ordered.posts_empty

private theorem Prepares.given
    (prepares : Prepares catalog indexHints table tree hinted distributed ready)
    (ordered : JoinTree.JoinOrder query tree) :
    ∀ visit ∈ distributed.top.visits, Given catalog visit := by
  obtain ⟨visits, _, _, _⟩ := distributeHints_ok prepares.hints
  obtain ⟨_, placement, _, _, attached, _, _⟩ := distributeConditions_ok prepares.conditions
  rw [(attachPostFilters_ok attached).1]
  exact addConditions_given (fun visit member => (ordered.fresh_visit member).1) visits
    placement.conditionsAt

/-- When conditions have been handed out, nothing else is known about the visits. -/
theorem Prepares.unevaluated
    (prepares : Prepares catalog indexHints table tree hinted distributed ready)
    (ordered : JoinTree.JoinOrder query tree) :
    ∀ visit ∈ distributed.top.visits, visit.Unevaluated :=
  fun visit member => (prepares.given ordered visit member).unevaluated

/-- Each visit of a ready candidate is ready for the conditions that were handed to it. -/
theorem Prepares.prepared
    (prepares : Prepares catalog indexHints table tree hinted distributed ready)
    (ordered : JoinTree.JoinOrder query tree) (distinct : catalog.hierarchy.Distinct) :
    List.Forall₂ (fun given visit => visit.Prepared catalog given)
      (distributed.top.visits.map (·.conditions)) ready.top.visits := by
  rw [List.forall₂_map_left_iff]
  refine ((List.forall₂_and_left _ _).mpr ⟨prepares.given ordered,
    (evaluate_ok prepares.evaluation).1.visits⟩).imp ?_
  rintro before after ⟨given, ran⟩
  exact Visit.prepared_of_evaluate given.unevaluated distinct given.hinted ran

theorem Prepares.unmarked
    (prepares : Prepares catalog indexHints table tree hinted distributed ready)
    (ordered : JoinTree.JoinOrder query tree) :
    ∀ visit ∈ ready.top.visits, visit.innermost = false := by
  intro visit member
  obtain ⟨before, inside, ran⟩ :=
    JoinTree.forall₂_partner (evaluate_ok prepares.evaluation).1.visits member
  rw [(Visit.evaluate_keeps ran).2.2.2, (prepares.given ordered before inside).unmarked]

theorem Prepares.evaluated
    (prepares : Prepares catalog indexHints table tree hinted distributed ready) :
    JoinTree.Pointwise (fun before after => before.evaluate catalog = .ok after)
      distributed.top ready.top := (evaluate_ok prepares.evaluation).1

/-- The first three steps make a candidate ready. -/
theorem Prepares.isReady
    (prepares : Prepares catalog indexHints table tree hinted distributed ready)
    (ordered : JoinTree.JoinOrder query tree) : Ready catalog table tree ready := by
  obtain ⟨placedOutline, placedOrder⟩ := distributeConditions_outline prepares.conditions
  obtain ⟨paired, order⟩ := evaluate_ok prepares.evaluation
  obtain ⟨hintedOrder, sameOrder⟩ := prepares.hinted_order
  obtain ⟨bare, noPosts⟩ := prepares.hinted_bare ordered
  refine ⟨order.trans (placedOrder.trans hintedOrder), ?_, ?_, ?_,
    fun distinct => ⟨_, prepares.prepared ordered distinct, ?_⟩⟩
  · rw [paired.outline fun _ _ ran => (Visit.evaluate_keeps ran).1, placedOutline,
      (distributeHints_ok prepares.hints).2.2.1]
    exact ordered.outline_self
  · intro visit member
    obtain ⟨before, inside, ran⟩ := JoinTree.forall₂_partner paired.visits member
    rw [(Visit.evaluate_keeps ran).2.2.1,
      (prepares.given ordered before inside).unevaluated.ordered]
  · intro visit member
    obtain ⟨before, _, ran⟩ := JoinTree.forall₂_partner paired.visits member
    have typeName : visit.typeName = before.typeName :=
      congrArg (·.typeName) (Visit.evaluate_keeps ran).1
    rw [typeName]
    exact Visit.evaluate_scans ran
  · rw [paired.posts, ← List.flatMap_def]
    exact distributeConditions_perm prepares.conditions (hintedOrder.trans sameOrder.symm) bare
      noPosts

/-! ## What later steps keep -/

/-- The later visit is of the same extent, has the same index to scan it, and keeps whatever the
earlier one is ready for. -/
structure KeptVisit (catalog : Catalog) (before after : Visit) : Prop where
  fresh : after.fresh = before.fresh
  scanIndex? : after.scanIndex? = before.scanIndex?
  prepared : ∀ given, before.Prepared catalog given → after.Prepared catalog given

private theorem KeptVisit.refl (catalog : Catalog) (visit : Visit) :
    KeptVisit catalog visit visit := ⟨rfl, rfl, fun _ => id⟩

/-- The visits are kept in their order, and the same conditions wait at the joins. -/
structure Kept (catalog : Catalog) (before after : JoinTree) : Prop where
  posts : after.posts = before.posts
  visits : List.Forall₂ (KeptVisit catalog) before.visits after.visits

theorem Kept.of_visits {before after : JoinTree} (posts : after.posts = before.posts)
    (visits : after.visits = before.visits) : Kept catalog before after :=
  ⟨posts, visits ▸ List.forall₂_same.mpr fun visit _ => .refl catalog visit⟩

theorem Kept.trans {before middle after : JoinTree} (first : Kept catalog before middle)
    (second : Kept catalog middle after) : Kept catalog before after :=
  ⟨second.posts.trans first.posts, JoinTree.forall₂_trans first.visits second.visits
    fun _ _ _ left right => ⟨right.fresh.trans left.fresh, right.scanIndex?.trans left.scanIndex?,
      fun given ready => right.prepared given (left.prepared given ready)⟩⟩

theorem Kept.holds {before after : JoinTree} (kept : Kept catalog before after)
    (holds : before.Holds catalog table) : after.Holds catalog table := by
  obtain ⟨givens, prepared, whole⟩ := holds
  exact ⟨givens, JoinTree.forall₂_trans prepared kept.visits fun _ _ _ ready keeps =>
    keeps.prepared _ ready, kept.posts ▸ whole⟩

theorem Kept.fresh {before after : JoinTree} (kept : Kept catalog before after) :
    after.visits.map Visit.fresh = before.visits.map Visit.fresh :=
  JoinTree.map_eq_of_forall₂ (kept.visits.imp fun _ _ => KeptVisit.fresh)

theorem Kept.partner {before after : JoinTree} (kept : Kept catalog before after)
    (member : visit ∈ after.visits) : ∃ own ∈ before.visits, own.fresh = visit.fresh := by
  rw [← List.mem_map, ← kept.fresh]
  exact List.mem_map_of_mem member

theorem Kept.visitOrder {before after : JoinTree} (kept : Kept catalog before after) :
    after.visitOrder = before.visitOrder :=
  JoinTree.visitOrder_of_fresh kept.fresh

private theorem kept_deliver (tree : JoinTree) (spec : SortSpec) (required : List Nat) :
    Kept catalog tree (tree.updateEach (deliver catalog spec required)) := by
  have paired := tree.updateEach_pointwise (deliver catalog spec required)
  refine ⟨paired.posts, paired.visits.imp ?_⟩
  rintro visit _ rfl
  rw [deliver]
  split
  · exact ⟨rfl, rfl, fun given prepared =>
      prepared.setOrderIndex fun use found =>
        Catalog.canScan_of_mem_indexesFor (Catalog.orderIndex?_spec found).1⟩
  · exact .refl catalog visit

theorem replaceSort_kept (distinct : candidate.top.visitOrder.Nodup)
    (ran : candidate.replaceSort catalog = (next, .ok eliminated)) :
    Kept catalog candidate.top next.top ∧ next.order = candidate.order := by
  rcases replaceSort_cases distinct catalog with
    ⟨_, refused⟩ | ⟨spec, input, required, sorted, _, done⟩
  · rw [refused] at ran
    cases ran
    exact ⟨.of_visits rfl rfl, rfl⟩
  · rw [done] at ran
    cases ran
    rw [sorted]
    have below : Kept catalog (.sort spec input) input := .of_visits rfl rfl
    exact ⟨below.trans (kept_deliver input spec required), rfl⟩

theorem presortInput_kept (distinct : candidate.top.visitOrder.Nodup)
    (ran : candidate.presortInput catalog = (next, .ok presorted)) :
    Kept catalog candidate.top next.top ∧ next.order = candidate.order := by
  have flagged : ∀ presorted, Kept catalog candidate.top (candidate.top.setPresorted presorted) :=
    fun presorted => .of_visits (posts_setPresorted _ _) (visits_setPresorted _ _)
  rcases presortInput_cases distinct catalog with
    ⟨top, _, same, refused⟩ | ⟨grouping, required, _, _, _, done⟩
  · rw [refused] at ran
    cases ran
    rcases same with rfl | rfl
    · exact ⟨.of_visits rfl rfl, rfl⟩
    · exact ⟨flagged false, rfl⟩
  · rw [done] at ran
    cases ran
    exact ⟨(flagged true).trans (kept_deliver _ _ required), rfl⟩

/-- What becomes of a visit when the one of an extent, if of any, is marked as the last. -/
def markLast (last : Option Nat) (visit : Visit) : Visit :=
  if some visit.extent = last then visit.setInnermost true else visit

@[simp] theorem markLast_extent (last : Option Nat) (visit : Visit) :
    (markLast last visit).extent = visit.extent := by
  rw [markLast]
  split <;> rfl

@[simp] theorem markLast_typeName (last : Option Nat) (visit : Visit) :
    (markLast last visit).typeName = visit.typeName := by
  rw [markLast]
  split <;> rfl

@[simp] theorem markLast_orderIndex? (last : Option Nat) (visit : Visit) :
    (markLast last visit).orderIndex? = visit.orderIndex? := by
  rw [markLast]
  split <;> rfl

theorem markLastVisit_ok (distinct : candidate.top.visitOrder.Nodup)
    (ran : candidate.markLastVisit = .ok next) :
    next = { candidate with
      top := candidate.top.updateEach (markLast candidate.order.getLast?) } := by
  rw [markLastVisit] at ran
  cases last : candidate.order.getLast? with
  | none =>
    rw [last] at ran
    cases ran
    have unmarked : candidate.top.updateEach (markLast none) = candidate.top :=
      JoinTree.updateEach_self fun visit _ => if_neg (Option.some_ne_none _)
    rw [unmarked]
  | some extent =>
    rw [last] at ran
    dsimp only at ran
    by_cases visited : extent ∈ candidate.top.visitOrder
    · rw [modifyVisit, JoinTree.modifyVisit?_of_mem distinct visited] at ran
      cases ran
      congr 2
      funext visit
      simp only [markLast, Option.some.injEq]
    · rw [modifyVisit, JoinTree.modifyVisit?_of_not_mem visited] at ran
      cases ran

theorem kept_markLast (catalog : Catalog) (tree : JoinTree) (last : Option Nat) :
    Kept catalog tree (tree.updateEach (markLast last)) := by
  have paired := tree.updateEach_pointwise (markLast last)
  refine ⟨paired.posts, paired.visits.imp ?_⟩
  rintro visit _ rfl
  rw [markLast]
  split
  · exact ⟨rfl, rfl, fun given prepared => prepared.setInnermost true⟩
  · exact .refl catalog visit

end Candidate

end ExtentPlanner
