import ExtentPlanner.Proofs.MatchedTrees
import ExtentPlanner.Proofs.PlanningRun

/-! What becomes of a visit once it has been evaluated. Whatever the planner tries to deliver an
order, it gives visits order indexes that serve their classes, or puts back what they had, and at
the end it marks one visit; the tree around the visits loses no more than a sort, and none of these
steps, whether it fails or not, changes which extents are visited in which order. This holds of any
tree, also of one that visits an extent twice: then the first of the visits is the one changed. -/
namespace ExtentPlanner

/-- A visit that has another order index, declared for its class, or another mark, and is as before
otherwise. -/
structure Visit.Redirected (catalog : Catalog) (before after : Visit) : Prop where
  same : ∃ orderIndex? innermost, after = { before with orderIndex?, innermost }
  serves : ∀ use, after.orderIndex? = some use →
    before.orderIndex? = some use ∨ use.index ∈ catalog.indexesFor before.typeName

namespace Visit.Redirected

variable {catalog : Catalog} {before middle after : Visit}

theorem refl (catalog : Catalog) (visit : Visit) : Redirected catalog visit visit :=
  ⟨⟨visit.orderIndex?, visit.innermost, rfl⟩, fun _ => .inl⟩

theorem fresh (redirected : Redirected catalog before after) : after.fresh = before.fresh := by
  obtain ⟨_, _, rfl⟩ := redirected.same
  rfl

theorem extent (redirected : Redirected catalog before after) : after.extent = before.extent :=
  congrArg (·.extent) redirected.fresh

theorem typeName (redirected : Redirected catalog before after) :
    after.typeName = before.typeName :=
  congrArg (·.typeName) redirected.fresh

theorem trans (first : Redirected catalog before middle)
    (second : Redirected catalog middle after) : Redirected catalog before after := by
  obtain ⟨_, _, rfl⟩ := first.same
  obtain ⟨orderIndex?, innermost, rfl⟩ := second.same
  exact ⟨⟨orderIndex?, innermost, rfl⟩, fun use ordered =>
    (second.serves use ordered).elim (first.serves use) .inr⟩

theorem setOrderIndex (redirected : Redirected catalog before after)
    (serves : ∀ use, wanted? = some use →
      before.orderIndex? = some use ∨ use.index ∈ catalog.indexesFor before.typeName) :
    Redirected catalog before (after.setOrderIndex wanted?) := by
  obtain ⟨_, innermost, rfl⟩ := redirected.same
  exact ⟨⟨wanted?, innermost, rfl⟩, serves⟩

theorem setInnermost (redirected : Redirected catalog before after) (innermost : Bool) :
    Redirected catalog before (after.setInnermost innermost) := by
  obtain ⟨orderIndex?, _, rfl⟩ := redirected.same
  exact ⟨⟨orderIndex?, innermost, rfl⟩, redirected.serves⟩

end Visit.Redirected

open Visit (Redirected)

/-! ## Changing the first visit of an extent -/

namespace JoinTree

theorem visit?_none_of_modifyVisit? {tree : JoinTree}
    (unchanged : tree.modifyVisit? extent change = none) : tree.visit? extent = none := by
  induction tree with
  | visit leaf =>
    rw [modifyVisit?] at unchanged
    split at unchanged
    · cases unchanged
    · rename_i other
      exact if_neg other
  | join kind left right post lefts rights =>
    rw [modifyVisit?] at unchanged
    split at unchanged
    · cases unchanged
    · rename_i notLeft
      rw [visit?, lefts notLeft, rights (Option.map_eq_none_iff.mp unchanged), Option.none_or]
  | sort spec input inputs | aggregate _ _ input inputs =>
    exact inputs (Option.map_eq_none_iff.mp unchanged)

variable {related : Visit → Visit → Prop}

theorem Pointwise.visit?_isSome (paired : Pointwise related base tree)
    (extents : ∀ own leaf, related own leaf → leaf.extent = own.extent) (extent : Nat) :
    (tree.visit? extent).isSome = (base.visit? extent).isSome := by
  have found := paired.matched.visit? extents extent
  generalize base.visit? extent = own at found
  generalize tree.visit? extent = leaf at found
  cases found <;> rfl

/-- A change of the first visit of an extent keeps two trees related if it does so for the visits
found there. -/
theorem Pointwise.modified (paired : Pointwise related base tree)
    (extents : ∀ own leaf, related own leaf → leaf.extent = own.extent)
    (keeps : ∀ own leaf, base.visit? extent = some own → related own leaf →
      related own (change leaf))
    (changed : tree.modifyVisit? extent change = some next) : Pointwise related base next := by
  induction paired generalizing next with
  | @visit own leaf same =>
    rw [modifyVisit?] at changed
    split at changed
    · rename_i here
      cases changed
      exact .visit (keeps _ _ (if_pos ((extents _ _ same).symm.trans here)) same)
    · cases changed
  | join pairedLeft pairedRight lefts rights =>
    rw [modifyVisit?] at changed
    split at changed
    · rename_i onLeft
      cases changed
      refine .join (lefts (fun own leaf found => keeps own leaf ?_) onLeft) pairedRight
      rw [visit?, found, Option.some_or]
    · rename_i notLeft
      -- The first visit of the extent is in the right side of both trees, since related visits are
      -- of the same extent.
      obtain ⟨right, onRight, rfl⟩ := Option.map_eq_some_iff.mp changed
      refine .join pairedLeft (rights (fun own leaf found => keeps own leaf ?_) onRight)
      have absent := pairedLeft.visit?_isSome extents extent
      rw [visit?_none_of_modifyVisit? notLeft, Option.isSome_none, eq_comm,
        Option.isSome_eq_false_iff, Option.isNone_iff_eq_none] at absent
      rw [visit?, absent, Option.none_or, found]
  | sort _ inputs =>
    obtain ⟨_, below, rfl⟩ := Option.map_eq_some_iff.mp changed
    exact .sort (inputs keeps below)
  | aggregate _ inputs =>
    obtain ⟨_, below, rfl⟩ := Option.map_eq_some_iff.mp changed
    exact .aggregate (inputs keeps below)

/-- A change that leaves a visit its extent leaves every visit of the tree its own. -/
theorem modifyVisit?_extents {tree : JoinTree}
    (changed : tree.modifyVisit? extent change = some next)
    (keeps : ∀ leaf, (change leaf).extent = leaf.extent) :
    Pointwise (fun before after => after.extent = before.extent) tree next := by
  have itself : Pointwise (fun before after => after.extent = before.extent) tree tree :=
    .refl (by intro leaf; rfl) tree
  exact itself.modified (fun _ _ => id) (fun _ leaf _ same => (keeps leaf).trans same) changed

theorem Pointwise.setPresorted (paired : Pointwise related base tree) (presorted : Bool) :
    Pointwise related (base.setPresorted presorted) (tree.setPresorted presorted) := by
  cases paired with
  | visit same => exact .visit same
  | join lefts rights => exact .join lefts rights
  | sort inputs =>
    cases inputs with
    | visit same => exact .sort (.visit same)
    | join lefts rights => exact .sort (.join lefts rights)
    | sort inputs => exact .sort (.sort inputs)
    | aggregate inputs => exact .sort (.aggregate inputs)
  | aggregate inputs => exact .aggregate inputs

@[simp] theorem visit?_setPresorted (tree : JoinTree) (presorted : Bool) (extent : Nat) :
    (tree.setPresorted presorted).visit? extent = tree.visit? extent := by
  rw [visit?_eq_find?, visit?_eq_find?, Candidate.visits_setPresorted]

theorem visitOrder_setPresorted (tree : JoinTree) (presorted : Bool) :
    (tree.setPresorted presorted).visitOrder = tree.visitOrder := by
  rw [visitOrder_eq_map, Candidate.visits_setPresorted, visitOrder_eq_map]

theorem groupings_setPresorted (tree : JoinTree) (presorted : Bool) :
    (tree.setPresorted presorted).aggregations.map (·.1) = tree.aggregations.map (·.1) := by
  cases tree with
  | sort spec input => cases input <;> rfl
  | visit | join | aggregate => rfl

/-- Trees with the same groupings and the same conditions after joins whose visits, taken in pairs,
are redirected. Sorts and the flags of aggregations may differ. -/
structure Retouched (catalog : Catalog) (before after : JoinTree) : Prop where
  visits : List.Forall₂ (Redirected catalog) before.visits after.visits
  posts : after.posts = before.posts
  groupings : after.aggregations.map (·.1) = before.aggregations.map (·.1)

namespace Retouched

variable {catalog : Catalog} {before middle after : JoinTree}

theorem of_pointwise (paired : Pointwise (Redirected catalog) before after) :
    Retouched catalog before after :=
  ⟨paired.visits, paired.posts, by rw [paired.aggregations]⟩

theorem refl (catalog : Catalog) (tree : JoinTree) : Retouched catalog tree tree :=
  of_pointwise (Pointwise.refl (Redirected.refl catalog) tree)

theorem trans (first : Retouched catalog before middle) (second : Retouched catalog middle after) :
    Retouched catalog before after :=
  ⟨forall₂_trans first.visits second.visits fun _ _ _ => Redirected.trans,
    second.posts.trans first.posts, second.groupings.trans first.groupings⟩

theorem setPresorted (catalog : Catalog) (tree : JoinTree) (presorted : Bool) :
    Retouched catalog tree (tree.setPresorted presorted) where
  visits := by
    rw [Candidate.visits_setPresorted]
    exact (refl catalog tree).visits
  posts := Candidate.posts_setPresorted tree presorted
  groupings := tree.groupings_setPresorted presorted

theorem visitOrder (retouched : Retouched catalog before after) :
    after.visitOrder = before.visitOrder := by
  rw [visitOrder_eq_map, visitOrder_eq_map]
  exact map_eq_of_forall₂ (retouched.visits.imp fun _ _ => Redirected.extent)

end Retouched

end JoinTree

open JoinTree (Pointwise Retouched)

/-! ## Setting order indexes -/

namespace Candidate

variable {candidate next : Candidate} {catalog : Catalog} {base : JoinTree}

/-- A setting that a visit of the tree had already, or whose index is declared for its class. -/
def Allowed (catalog : Catalog) (base : JoinTree) (setting : Nat × Option IndexUse) : Prop :=
  ∀ own use, base.visit? setting.1 = some own → setting.2 = some use →
    own.orderIndex? = some use ∨ use.index ∈ catalog.indexesFor own.typeName

theorem setOrderIndexes_redirected {settings : List (Nat × Option IndexUse)}
    (paired : Pointwise (Redirected catalog) base candidate.top)
    (allowed : ∀ setting ∈ settings, Allowed catalog base setting)
    (ran : candidate.setOrderIndexes settings = (next, .ok ())) :
    Pointwise (Redirected catalog) base next.top := by
  induction settings generalizing candidate with
  | nil =>
    cases ran
    exact paired
  | cons setting rest ih =>
    obtain ⟨here, others⟩ := List.forall_mem_cons.mp allowed
    rw [setOrderIndexes, modifyVisit] at ran
    split at ran
    · rename_i changed modified
      split at modified
      · rename_i top found
        cases modified
        have step : Pointwise (Redirected catalog) base top :=
          paired.modified (fun _ _ => Redirected.extent)
            (fun own leaf inside same => same.setOrderIndex fun use => here own use inside) found
        exact @ih { candidate with top } step others ran
      · cases modified
    · cases ran

/-- Every assignment is for a visited extent and uses the index that serves its part of the
order. -/
theorem visit_of_assigned {assignments : List OrderAssignment}
    (found : candidate.orderAssignments? catalog spec = some assignments) :
    ∀ assignment ∈ assignments, ∃ visit, candidate.visit? assignment.extent = some visit ∧
      spec.index? catalog assignment.extent visit.typeName = some assignment.use := by
  simp only [orderAssignments?, Option.bind_eq_bind, Option.bind_eq_some_iff] at found
  obtain ⟨required, _, found⟩ := found
  split at found
  · cases found
  intro assignment listed
  obtain ⟨extent, _, assigned⟩ := JoinTree.forall₂_partner (mapM_option.mp found) listed
  simp only [orderAssignment?, Option.bind_eq_bind, Option.bind_eq_some_iff] at assigned
  obtain ⟨visit, visited, use, indexed, permitted⟩ := assigned
  split at permitted
  · cases permitted
    exact ⟨visit, visited, indexed⟩
  · cases permitted

theorem allowed_of_assigned {assignments : List OrderAssignment}
    (found : candidate.orderAssignments? catalog spec = some assignments) :
    ∀ setting ∈ assignedOrderIndexes assignments, Allowed catalog candidate.top setting := by
  intro setting member own use inside same
  obtain ⟨assignment, listed, rfl⟩ := List.mem_map.mp member
  cases same
  obtain ⟨visit, visited, indexed⟩ := visit_of_assigned found assignment listed
  cases visited.symm.trans inside
  exact .inr (Catalog.orderIndex?_spec indexed).1

theorem allowed_of_previous (candidate : Candidate) (catalog : Catalog)
    (assignments : List OrderAssignment) :
    ∀ setting ∈ candidate.previousOrderIndexes assignments,
      Allowed catalog candidate.top setting := by
  intro setting member own use inside same
  obtain ⟨assignment, _, rfl⟩ := List.mem_map.mp member
  simp only [Candidate.visit?] at same inside
  rw [inside] at same
  exact .inl same

private theorem restoreOrderIndexes_redirected {previous : List (Nat × Option IndexUse)}
    (paired : Pointwise (Redirected catalog) base candidate.top)
    (allowed : ∀ setting ∈ previous, Allowed catalog base setting)
    (ran : candidate.restoreOrderIndexes previous = (next, .ok replaced)) :
    replaced = false ∧ Pointwise (Redirected catalog) base next.top := by
  rw [restoreOrderIndexes] at ran
  split at ran
  · rename_i restored
    cases ran
    exact ⟨rfl, setOrderIndexes_redirected paired allowed restored⟩
  · cases ran

/-! ## The steps after evaluation -/

/-- Presorting changes a flag and redirects visits. -/
theorem presortInput_retouched
    (ran : candidate.presortInput catalog = (next, .ok presorted)) :
    Retouched catalog candidate.top next.top := by
  have itself := Pointwise.refl (Redirected.refl catalog) candidate.top
  have known : Pointwise (Redirected catalog) candidate.top candidate.rememberCost.top := itself
  rw [presortInput] at ran
  split at ran
  · cases ran
    exact .refl catalog _
  split at ran
  · cases ran
    exact .refl catalog _
  rename_i assignments found
  dsimp only at ran
  split at ran
  · cases ran
  rename_i changed assigned
  have paired := setOrderIndexes_redirected known (allowed_of_assigned found) assigned
  split at ran
  · cases ran
    exact (Retouched.of_pointwise paired).trans (.setPresorted catalog _ true)
  · -- What is put back is read off before the flag was set; flags change no visits.
    have flagged := (paired.setPresorted true).setPresorted false
    have restored := (restoreOrderIndexes_redirected flagged
      (fun setting member own use inside => allowed_of_previous candidate catalog assignments
        setting member own use (by simpa using inside)) ran).2
    exact (Retouched.setPresorted catalog _ true).trans
      ((Retouched.setPresorted catalog _ false).trans (.of_pointwise restored))

/-- Avoiding the sort at the top takes it away or leaves it, and redirects visits. -/
theorem replaceSort_redirected
    (ran : candidate.replaceSort catalog = (next, .ok replaced)) :
    if replaced then ∃ spec input, candidate.top = .sort spec input ∧
        Pointwise (Redirected catalog) input next.top
      else Pointwise (Redirected catalog) candidate.top next.top := by
  have itself := Pointwise.refl (Redirected.refl catalog) candidate.top
  have known : Pointwise (Redirected catalog) candidate.top candidate.rememberCost.top := itself
  rw [replaceSort] at ran
  split at ran
  swap
  · cases ran
    exact itself
  rename_i spec input sorted
  split at ran
  · cases ran
    exact itself
  rename_i assignments found
  dsimp only at ran
  split at ran
  · cases ran
  rename_i changed assigned
  have paired := setOrderIndexes_redirected known (allowed_of_assigned found) assigned
  split at ran
  swap
  · cases ran
  rename_i spec' changedInput changedTop
  split at ran
  · cases ran
    refine ⟨spec, input, sorted, ?_⟩
    rw [sorted, changedTop] at paired
    cases paired with
    | sort inputs => exact inputs
  · obtain ⟨rfl, restored⟩ := restoreOrderIndexes_redirected paired
      (allowed_of_previous candidate catalog assignments) ran
    exact restored

theorem replaceSort_retouched (ran : candidate.replaceSort catalog = (next, .ok replaced)) :
    Retouched catalog candidate.top next.top := by
  have redirected := replaceSort_redirected ran
  split at redirected
  · obtain ⟨spec, input, sorted, inputs⟩ := redirected
    have below : Retouched catalog (.sort spec input) input :=
      ⟨(Retouched.refl catalog input).visits, rfl, rfl⟩
    rw [sorted]
    exact below.trans (.of_pointwise inputs)
  · exact .of_pointwise redirected

/-- Marking the last visit changes the tree only, and there keeps the visits related to what they
were. -/
theorem markLastVisit_related {related : Visit → Visit → Prop}
    (each : ∀ leaf, related leaf leaf)
    (extents : ∀ own leaf, related own leaf → leaf.extent = own.extent)
    (marks : ∀ own leaf, related own leaf → related own (leaf.setInnermost true))
    (ran : candidate.markLastVisit = .ok next) :
    ∃ top, next = { candidate with top } ∧ Pointwise related candidate.top top := by
  rw [markLastVisit] at ran
  split at ran
  · cases ran
    exact ⟨_, rfl, .refl each _⟩
  · rw [modifyVisit] at ran
    split at ran
    · rename_i found
      cases ran
      exact ⟨_, rfl, (Pointwise.refl each candidate.top).modified extents
        (fun own leaf _ => marks own leaf) found⟩
    · cases ran

theorem markLastVisit_retouched (catalog : Catalog) (ran : candidate.markLastVisit = .ok next) :
    Retouched catalog candidate.top next.top := by
  obtain ⟨top, rfl, paired⟩ := markLastVisit_related (Redirected.refl catalog)
    (fun _ _ => Redirected.extent) (fun _ _ same => same.setInnermost true) ran
  exact .of_pointwise paired

/-! ## The order of the visits -/

/-- The extents that are visited, and what is recorded of their order. -/
structure SameOrder (before after : Candidate) : Prop where
  visited : after.top.visitOrder = before.top.visitOrder
  order : after.order = before.order
  positions : after.positions = before.positions

theorem SameOrder.refl (candidate : Candidate) : SameOrder candidate candidate := ⟨rfl, rfl, rfl⟩

theorem SameOrder.trans (first : SameOrder before middle) (second : SameOrder middle after) :
    SameOrder before after :=
  ⟨second.visited.trans first.visited, second.order.trans first.order,
    second.positions.trans first.positions⟩

theorem sameOrder_setOrderIndexes (candidate : Candidate)
    (settings : List (Nat × Option IndexUse)) :
    SameOrder candidate (candidate.setOrderIndexes settings).1 := by
  induction settings generalizing candidate with
  | nil => exact ⟨rfl, rfl, rfl⟩
  | cons setting rest ih =>
    rw [setOrderIndexes, modifyVisit]
    cases modified : candidate.top.modifyVisit? setting.1 (·.setOrderIndex setting.2) with
    | none => exact .refl candidate
    | some top =>
      have extents := JoinTree.modifyVisit?_extents modified fun _ => rfl
      have set : SameOrder candidate { candidate with top } :=
        ⟨extents.visitOrder fun _ _ => id, rfl, rfl⟩
      exact set.trans (ih _)

theorem sameOrder_restoreOrderIndexes (candidate : Candidate)
    (previous : List (Nat × Option IndexUse)) :
    SameOrder candidate (candidate.restoreOrderIndexes previous).1 := by
  have set := candidate.sameOrder_setOrderIndexes previous
  rw [restoreOrderIndexes]
  split <;> rename_i ran <;> rw [ran] at set <;> exact set

theorem sameOrder_setPresorted (candidate : Candidate) (presorted : Bool) :
    SameOrder candidate (candidate.setPresorted presorted) :=
  ⟨candidate.top.visitOrder_setPresorted presorted, rfl, rfl⟩

theorem sameOrder_rememberCost (candidate : Candidate) :
    SameOrder candidate candidate.rememberCost := ⟨rfl, rfl, rfl⟩

theorem sameOrder_presortInput (candidate : Candidate) (catalog : Catalog) :
    SameOrder candidate (candidate.presortInput catalog).1 := by
  rw [presortInput]
  split
  · exact .refl candidate
  split
  · exact .refl candidate
  rename_i assignments _
  have set := candidate.sameOrder_rememberCost.trans
    (sameOrder_setOrderIndexes _ (assignedOrderIndexes assignments))
  dsimp only
  split <;> rename_i ran <;> rw [ran] at set
  · exact set
  have presorted := (set.trans (sameOrder_setPresorted _ true)).trans (sameOrder_rememberCost _)
  split
  · exact presorted
  · exact (presorted.trans (sameOrder_setPresorted _ false)).trans
      (sameOrder_restoreOrderIndexes _ _)

theorem sameOrder_replaceSort (candidate : Candidate) (catalog : Catalog) :
    SameOrder candidate (candidate.replaceSort catalog).1 := by
  rw [replaceSort]
  split
  swap
  · exact .refl candidate
  split
  · exact .refl candidate
  rename_i assignments _
  have set := candidate.sameOrder_rememberCost.trans
    (sameOrder_setOrderIndexes _ (assignedOrderIndexes assignments))
  dsimp only
  split <;> rename_i ran <;> rw [ran] at set
  · exact set
  split
  · rename_i sorted
    split
    · -- The sort that is taken away visits what its input visits.
      refine set.trans ⟨?_, rfl, rfl⟩
      rw [sorted, JoinTree.visitOrder]
    · exact set.trans (sameOrder_restoreOrderIndexes _ _)
  · exact set

theorem sameOrder_markLastVisit (ran : candidate.markLastVisit = .ok next) :
    SameOrder candidate next := by
  obtain ⟨top, rfl, paired⟩ :=
    @markLastVisit_related _ _ (fun before after => after.extent = before.extent)
      (by intro leaf; rfl) (by intro _ _ same; exact same) (by intro _ _ same; exact same) ran
  exact ⟨paired.visitOrder fun _ _ => id, rfl, rfl⟩

end Candidate

/-! ## The chosen candidate -/

namespace Planner

variable {planner : Planner} {query : Query}

theorem Delivers.retouched (delivers : planner.Delivers ready planned) :
    Retouched planner.catalog ready.top planned.top ∧ planned.order = ready.order := by
  rw [Delivers] at delivers
  split at delivers
  · obtain ⟨presorted, grouped, eliminated, sorted, presort, replaced, rfl⟩ := delivers
    have firstOrder := ready.sameOrder_presortInput planner.catalog
    have secondOrder := presorted.sameOrder_replaceSort planner.catalog
    rw [presort] at firstOrder
    rw [replaced] at secondOrder
    have first := Candidate.presortInput_retouched presort
    have second := Candidate.replaceSort_retouched replaced
    exact ⟨first.trans second, (firstOrder.trans secondOrder).order⟩
  · rw [delivers]
    exact ⟨.refl _ _, rfl⟩

/-- The chosen candidate is one of the compared join trees, prepared and then retouched. -/
theorem choose_retouched (ran : planner.choose query = .ok chosen) :
    ∃ trees tree hinted distributed ready, planner.joinTrees query = .ok trees ∧ tree ∈ trees ∧
      Candidate.Prepares planner.catalog query.hints.indexHints query.conditions tree hinted
        distributed ready ∧
      Retouched planner.catalog ready.top chosen.top ∧ chosen.order = ready.order := by
  obtain ⟨trees, tree, finished, marked, listed, member, planned, marks, rfl⟩ := choose_steps ran
  obtain ⟨hinted, distributed, ready, prepares, delivers⟩ := planCandidate_iff.mp planned
  obtain ⟨retouched, order⟩ := delivers.retouched
  have last := Candidate.markLastVisit_retouched planner.catalog marks
  exact ⟨trees, tree, hinted, distributed, ready, listed, member, prepares, retouched.trans last,
    (Candidate.sameOrder_markLastVisit marks).order.trans order⟩

/-- The chosen candidate has the visits of some join order, prepared and then redirected. -/
theorem choose_redirected (ran : planner.choose query = .ok chosen) :
    ∃ tree hinted distributed ready, JoinTree.JoinOrder query.tree tree ∧
      Candidate.Prepares planner.catalog query.hints.indexHints query.conditions tree hinted
        distributed ready ∧
      List.Forall₂ (Redirected planner.catalog) ready.top.visits chosen.top.visits := by
  obtain ⟨trees, tree, hinted, distributed, ready, listed, member, prepares, retouched, _⟩ :=
    choose_retouched ran
  exact ⟨tree, hinted, distributed, ready, joinOrder_of_mem_joinTrees listed member, prepares,
    retouched.visits⟩

end Planner

end ExtentPlanner
