import ExtentPlanner.Proofs.MatchedTrees
import ExtentPlanner.Proofs.OuterJoins

/-! Conditions that wait for a join. Such a condition goes to the lowest join that suits it, so a
subtree holds it exactly if the subtree as a whole suits it. What suits a condition is said by sets
of extents alone, and therefore no join order matters to it. -/
namespace ExtentPlanner

/-- The extents that a condition tests for null are among those it reads. -/
theorem Condition.nullTested_subset (condition : Condition) :
    ∀ extent ∈ condition.nullTested, extent ∈ condition.extents := by
  have operands : ∀ left right : Operand, ∀ extent ∈ nullTestedOperands left right,
      extent ∈ left.extents ++ right.extents := by
    intro left right extent member
    rw [nullTestedOperands] at member
    split at member
    · exact List.mem_append_right _ member
    · split at member
      · exact List.mem_append_left _ member
      · cases member
  induction condition with
  | truth value => exact fun _ => id
  | compare operator left right =>
    intro extent member
    cases operator with
    | is | isNot => exact operands left right extent member
    | _ => cases member
  | isType object target =>
    intro extent member
    cases member
  | and left right lefts rights | or left right lefts rights =>
    intro extent member
    rw [extents, List.mem_append]
    exact (List.mem_append.mp member).imp (lefts extent) (rights extent)
  | not inner inners => exact inners

namespace JoinTree

variable {filter : PostFilter} {filters : List PostFilter} {tree : JoinTree}

/-- Whether a tree visits all extents that a condition reads and may fill one that it tests. -/
def PostFilter.Suits (filter : PostFilter) (tree : JoinTree) : Prop :=
  (∀ extent, filter.references.includes extent = true → extent ∈ tree.visitOrder) ∧
    ∃ extent ∈ tree.filled, filter.tested.includes extent = true

theorem PostFilter.Suits.of_subtree (below : sub ∈ tree.subtrees) (suits : filter.Suits sub) :
    filter.Suits tree := by
  obtain ⟨reads, extent, filled, tested⟩ := suits
  exact ⟨fun member read => visitOrder_of_subtree below member (reads member read), extent,
    filled_of_subtree below extent filled, tested⟩

theorem PostFilter.suits_iff_of_rearranged (rearranged : Rearranged tree other) :
    filter.Suits tree ↔ filter.Suits other := by
  simp only [Suits, rearranged.visitOrder_perm.mem_iff, rearranged.filled]

private theorem suits_iff_of_outline {placed : JoinTree} (same : placed.outline = tree.outline) :
    filter.Suits placed ↔ filter.Suits tree := by
  rw [PostFilter.suits_iff_of_rearranged placed.rearranged_outline, same,
    ← PostFilter.suits_iff_of_rearranged tree.rearranged_outline]

theorem admits_ok (small : ∀ extent ∈ tree.visitOrder, extent < maxExtents) (filter : PostFilter) :
    ∃ admitted, tree.admits filter = .ok admitted ∧ (admitted = true ↔ filter.Suits tree) := by
  obtain ⟨extents, ranExtents⟩ := ExtentSet.ofList_ok small
  obtain ⟨supplied, ranSupplied⟩ := nullSupplied_ok small
  have reads : filter.references.isSubset extents = true ↔
      ∀ extent, filter.references.includes extent = true → extent ∈ tree.visitOrder := by
    simp only [ExtentSet.isSubset_iff, (ExtentSet.ofList_members ranExtents).2]
  by_cases covered : filter.references.isSubset extents = true
  · refine ⟨filter.fits extents supplied, ?_, ?_⟩
    · refine bind_succeeds.mpr ⟨extents, ranExtents, ?_⟩
      rw [if_pos covered]
      exact bind_succeeds.mpr ⟨supplied, ranSupplied, rfl⟩
    · rw [PostFilter.fits, covered, Bool.true_and, ExtentSet.intersects_iff, PostFilter.Suits,
        and_iff_right (reads.mp covered)]
      simp only [nullSupplied_members ranSupplied]
  · refine ⟨false, bind_succeeds.mpr ⟨extents, ranExtents, if_neg covered⟩, ?_⟩
    simp only [Bool.false_eq_true, false_iff]
    exact fun suits => covered (reads.mpr suits.1)

/-- A condition is attached somewhere in a tree exactly if the tree as a whole suits it. -/
theorem attachLowest?_ok (small : ∀ extent ∈ tree.visitOrder, extent < maxExtents)
    (filter : PostFilter) :
    ∃ placed?, tree.attachLowest? filter = .ok placed? ∧
      (placed?.isSome = true ↔ filter.Suits tree) := by
  induction tree with
  | visit leaf => exact ⟨none, rfl, by simp [PostFilter.Suits]⟩
  | join kind left right post lefts rights =>
    obtain ⟨smallLeft, smallRight⟩ := List.forall_mem_append.mp small
    obtain ⟨admitted, admits, whole⟩ := admits_ok small filter
    obtain ⟨onLeft?, ranLeft, inLeft⟩ := lefts smallLeft
    obtain ⟨onRight?, ranRight, inRight⟩ := rights smallRight
    have leftBelow : left ∈ (join kind left right post).subtrees :=
      List.mem_cons_of_mem _ (List.mem_append_left _ left.self_mem_subtrees)
    have rightBelow : right ∈ (join kind left right post).subtrees :=
      List.mem_cons_of_mem _ (List.mem_append_right _ right.self_mem_subtrees)
    cases onLeft? with
    | some placed =>
      exact ⟨_, bind_succeeds.mpr ⟨_, admits, bind_succeeds.mpr ⟨_, ranLeft, rfl⟩⟩,
        iff_of_true rfl ((inLeft.mp rfl).of_subtree leftBelow)⟩
    | none =>
      cases onRight? with
      | some placed =>
        exact ⟨_, bind_succeeds.mpr ⟨_, admits, bind_succeeds.mpr ⟨_, ranLeft,
          bind_succeeds.mpr ⟨_, ranRight, rfl⟩⟩⟩,
          iff_of_true rfl ((inRight.mp rfl).of_subtree rightBelow)⟩
      | none =>
        refine ⟨_, bind_succeeds.mpr ⟨_, admits, bind_succeeds.mpr ⟨_, ranLeft,
          bind_succeeds.mpr ⟨_, ranRight, rfl⟩⟩⟩, ?_⟩
        rw [← whole]
        cases admitted <;> simp
  | sort spec input inputs | aggregate _ _ input inputs =>
    obtain ⟨placed?, ran, placed⟩ := inputs small
    exact ⟨_, bind_succeeds.mpr ⟨_, ran, rfl⟩, by rw [Option.isSome_map, placed]; rfl⟩

theorem attachLowest?_isSome (small : ∀ extent ∈ tree.visitOrder, extent < maxExtents)
    (ran : tree.attachLowest? filter = .ok placed?) :
    placed?.isSome = true ↔ filter.Suits tree := by
  obtain ⟨_, again, placed⟩ := attachLowest?_ok small filter
  cases ran.symm.trans again
  exact placed

/-- Where a list of conditions has been attached: each subtree holds those that it suits. -/
def Settled (filters : List PostFilter) (tree : JoinTree) : Prop :=
  ∀ sub ∈ tree.subtrees, ∀ condition, condition ∈ sub.posts.flatten ↔
    ∃ filter ∈ filters, filter.condition = condition ∧ filter.Suits sub

private theorem settled_join {left right : JoinTree} {post : List Condition} :
    Settled filters (join kind left right post) ↔
      (∀ condition, condition ∈ (join kind left right post).posts.flatten ↔
        ∃ filter ∈ filters, filter.condition = condition ∧
          filter.Suits (join kind left right post)) ∧
      Settled filters left ∧ Settled filters right := by
  rw [Settled, subtrees, List.forall_mem_cons, List.forall_mem_append]
  rfl

/-- Nothing changes for a tree that a further condition does not suit. -/
private theorem Settled.cons_of_not_suits (settled : Settled filters tree)
    (unsuited : ¬ filter.Suits tree) : Settled (filter :: filters) tree := by
  intro sub below condition
  rw [settled sub below, List.exists_mem_cons_iff]
  exact ⟨.inr, fun either => either.resolve_left fun here => unsuited (here.2.of_subtree below)⟩

private theorem holds_attached (small : ∀ extent ∈ tree.visitOrder, extent < maxExtents)
    (ran : tree.attachLowest? filter = .ok (some placed))
    (before : ∀ condition, condition ∈ tree.posts.flatten ↔
      ∃ filter ∈ filters, filter.condition = condition ∧ filter.Suits tree) :
    ∀ condition, condition ∈ placed.posts.flatten ↔
      ∃ other ∈ filter :: filters, other.condition = condition ∧ other.Suits placed := by
  obtain ⟨_, outline, added⟩ := attachLowest?_some ran
  have suits := (attachLowest?_isSome small ran).mp rfl
  intro condition
  simp only [suits_iff_of_outline outline, List.exists_mem_cons_iff]
  rw [added.mem_iff, List.mem_cons, before, and_iff_left suits, eq_comm]

theorem not_suits_of_none (small : ∀ extent ∈ tree.visitOrder, extent < maxExtents)
    (ran : tree.attachLowest? filter = .ok none) : ¬ filter.Suits tree := fun suits =>
  Bool.false_ne_true ((attachLowest?_isSome small ran).mpr suits)

/-- Attaching one more condition settles it, because at most one side of a join suits it. -/
theorem Settled.attachLowest? (small : ∀ extent ∈ tree.visitOrder, extent < maxExtents)
    (distinct : tree.visitOrder.Nodup)
    (reads : ∃ extent, filter.references.includes extent = true)
    (settled : Settled filters tree) (ran : tree.attachLowest? filter = .ok (some placed)) :
    Settled (filter :: filters) placed := by
  have attaches := attaches_of_some ran
  induction attaches with
  | @left kind left right changed post ranLeft _ ih =>
    obtain ⟨smallLeft, _⟩ := List.forall_mem_append.mp small
    obtain ⟨distinctLeft, _, apart⟩ := List.nodup_append.mp distinct
    obtain ⟨own, settledLeft, settledRight⟩ := settled_join.mp settled
    have suits := (attachLowest?_isSome smallLeft ranLeft).mp rfl
    have unsuited : ¬ filter.Suits right := by
      intro onRight
      obtain ⟨extent, read⟩ := reads
      exact apart extent (suits.1 extent read) extent (onRight.1 extent read) rfl
    exact settled_join.mpr ⟨holds_attached small ran own,
      ih smallLeft distinctLeft settledLeft ranLeft, settledRight.cons_of_not_suits unsuited⟩
  | @right kind left right changed post notLeft ranRight _ ih =>
    obtain ⟨smallLeft, smallRight⟩ := List.forall_mem_append.mp small
    obtain ⟨_, distinctRight, _⟩ := List.nodup_append.mp distinct
    obtain ⟨own, settledLeft, settledRight⟩ := settled_join.mp settled
    exact settled_join.mpr ⟨holds_attached small ran own,
      settledLeft.cons_of_not_suits (not_suits_of_none smallLeft notLeft),
      ih smallRight distinctRight settledRight ranRight⟩
  | @here kind left right post notLeft notRight =>
    obtain ⟨smallLeft, smallRight⟩ := List.forall_mem_append.mp small
    obtain ⟨own, settledLeft, settledRight⟩ := settled_join.mp settled
    exact settled_join.mpr ⟨holds_attached small ran own,
      settledLeft.cons_of_not_suits (not_suits_of_none smallLeft notLeft),
      settledRight.cons_of_not_suits (not_suits_of_none smallRight notRight)⟩
  | sort ranInput _ ih | aggregate ranInput _ ih =>
    have whole := holds_attached small ran (settled _ List.mem_cons_self)
    exact List.forall_mem_cons.mpr ⟨whole, ih small distinct
      (fun sub below => settled sub (List.mem_cons_of_mem _ below)) ranInput⟩

theorem settled_nil (bare : tree.posts.flatten = []) : Settled [] tree := by
  have emptyBelow : ∀ sub ∈ tree.subtrees, sub.posts.flatten = [] := by
    induction tree with
    | visit leaf =>
      intro sub below
      rw [List.mem_singleton.mp below]
      exact bare
    | join kind left right post lefts rights =>
      simp only [posts, List.flatten_append, List.append_eq_nil_iff] at bare
      refine List.forall_mem_cons.mpr ⟨by simp [posts, bare],
        List.forall_mem_append.mpr ⟨lefts bare.1.1, rights bare.1.2⟩⟩
    | sort spec input inputs | aggregate _ _ input inputs =>
      exact List.forall_mem_cons.mpr ⟨bare, inputs bare⟩
  intro sub below condition
  simp [emptyBelow sub below]

end JoinTree

namespace Candidate

open JoinTree

variable {top : JoinTree} {filters before : List PostFilter}

private theorem small_of_outline {placed : JoinTree} (outline : placed.outline = top.outline)
    (small : ∀ extent ∈ top.visitOrder, extent < maxExtents) :
    ∀ extent ∈ placed.visitOrder, extent < maxExtents := by
  rwa [← outline_visitOrder, outline, outline_visitOrder]

theorem attachPostFilters_settles (small : ∀ extent ∈ top.visitOrder, extent < maxExtents)
    (distinct : top.visitOrder.Nodup)
    (reads : ∀ filter ∈ filters, ∃ extent, filter.references.includes extent = true)
    (settled : Settled before top) (ran : attachPostFilters top filters = (placed, .ok ())) :
    Settled (filters.reverse ++ before) placed := by
  induction filters generalizing top before with
  | nil =>
    cases ran
    exact settled
  | cons filter rest ih =>
    obtain ⟨readsHead, readsRest⟩ := List.forall_mem_cons.mp reads
    rw [attachPostFilters] at ran
    split at ran
    · rename_i next attached
      obtain ⟨_, outline, _⟩ := attachLowest?_some attached
      rw [List.reverse_cons, List.append_assoc, List.singleton_append]
      refine ih (small_of_outline outline small) ?_ readsRest
        (settled.attachLowest? small distinct readsHead attached) ran
      rwa [← outline_visitOrder, outline, outline_visitOrder]
    · cases ran
    · cases ran

/-- Conditions that a tree suits can all be attached in it. -/
theorem attachPostFilters_succeeds (small : ∀ extent ∈ top.visitOrder, extent < maxExtents)
    (suited : ∀ filter ∈ filters, filter.Suits top) :
    ∃ placed, attachPostFilters top filters = (placed, .ok ()) := by
  have takes : ∀ filter ∈ filters, top.Takes filter := by
    intro filter member
    obtain ⟨placed?, attached, isPlaced⟩ := attachLowest?_ok small filter
    obtain ⟨placed, rfl⟩ := Option.isSome_iff_exists.mp (isPlaced.mpr (suited filter member))
    exact ⟨placed, attached⟩
  exact ⟨_, Prod.ext rfl ((attachPostFilters_succeeds_iff top filters).mpr takes)⟩

end Candidate

end ExtentPlanner
