import ExtentPlanner.Candidate.Distribution
import ExtentPlanner.Proofs.Success
import ExtentPlanner.Proofs.TreeShape
import Mathlib.Data.List.Basic

/-! Where the conditions of a table go when they are handed out. A group whose extents are all
visited is split between one visit and the joins; a success means that no group was left out, so
that the visits and the joins together hold every stored condition once. -/
namespace ExtentPlanner

namespace JoinTree

/-- How a condition comes to be attached to a join: in the left side of the tree if that takes it,
else in the right side, else at the top. -/
inductive Attaches (filter : PostFilter) : JoinTree → JoinTree → Prop where
  | left {kind : JoinKind} {left right changed : JoinTree} {post : List Condition}
    (ran : left.attachLowest? filter = .ok (some changed))
    (deeper : Attaches filter left changed) :
    Attaches filter (join kind left right post) (join kind changed right post)
  | right {kind : JoinKind} {left right changed : JoinTree} {post : List Condition}
    (notLeft : left.attachLowest? filter = .ok none)
    (ran : right.attachLowest? filter = .ok (some changed))
    (deeper : Attaches filter right changed) :
    Attaches filter (join kind left right post) (join kind left changed post)
  | here {kind : JoinKind} {left right : JoinTree} {post : List Condition}
    (notLeft : left.attachLowest? filter = .ok none)
    (notRight : right.attachLowest? filter = .ok none) :
    Attaches filter (join kind left right post)
      (join kind left right (post ++ [filter.condition]))
  | sort (ran : input.attachLowest? filter = .ok (some changed))
    (deeper : Attaches filter input changed) :
    Attaches filter (sort spec input) (sort spec changed)
  | aggregate (ran : input.attachLowest? filter = .ok (some changed))
    (deeper : Attaches filter input changed) :
    Attaches filter (aggregate grouping presorted input) (aggregate grouping presorted changed)

theorem attaches_of_some {tree : JoinTree} {filter : PostFilter}
    (ran : tree.attachLowest? filter = .ok (some placed)) : Attaches filter tree placed := by
  induction tree generalizing placed with
  | visit leaf => cases ran
  | join kind left right post lefts rights =>
    obtain ⟨admitted, _, ran⟩ := bind_succeeds.mp ran
    obtain ⟨onLeft, inLeft, ran⟩ := bind_succeeds.mp ran
    cases onLeft with
    | some changed =>
      cases ran
      exact .left inLeft (lefts inLeft)
    | none =>
      obtain ⟨onRight, inRight, ran⟩ := bind_succeeds.mp ran
      cases onRight with
      | some changed =>
        cases ran
        exact .right inLeft inRight (rights inRight)
      | none =>
        cases admitted with
        | false => cases ran
        | true =>
          cases ran
          exact .here inLeft inRight
  | sort spec input inputs =>
    obtain ⟨below, inInput, ran⟩ := bind_succeeds.mp ran
    cases below with
    | none => cases ran
    | some changed =>
      cases ran
      exact .sort inInput (inputs inInput)
  | aggregate grouping presorted input inputs =>
    obtain ⟨below, inInput, ran⟩ := bind_succeeds.mp ran
    cases below with
    | none => cases ran
    | some changed =>
      cases ran
      exact .aggregate inInput (inputs inInput)

/-- A condition after a join is added to one join and changes nothing else. -/
theorem attachLowest?_some {tree : JoinTree} {filter : PostFilter}
    (ran : tree.attachLowest? filter = .ok (some placed)) :
    placed.visits = tree.visits ∧ placed.outline = tree.outline ∧
      placed.posts.flatten.Perm (filter.condition :: tree.posts.flatten) := by
  have attaches := attaches_of_some ran
  clear ran
  induction attaches with
  | @left kind left right changed post ran _ ih =>
    obtain ⟨sameVisits, sameOutline, added⟩ := ih
    refine ⟨by simp [visits, sameVisits], by simp [outline, sameOutline], ?_⟩
    simpa [posts, List.flatten_append] using added.append_right (right.posts.flatten ++ post)
  | @right kind left right changed post notLeft ran _ ih =>
    obtain ⟨sameVisits, sameOutline, added⟩ := ih
    refine ⟨by simp [visits, sameVisits], by simp [outline, sameOutline], ?_⟩
    have moved := (added.append_right post).append_left left.posts.flatten
    simpa [posts, List.flatten_append] using moved.trans List.perm_middle
  | @here kind left right post notLeft notRight =>
    refine ⟨rfl, rfl, ?_⟩
    have moved := @List.perm_append_comm _
      (left.posts.flatten ++ (right.posts.flatten ++ post)) [filter.condition]
    simpa [posts, List.flatten_append] using moved
  | sort _ _ ih | aggregate _ _ ih =>
    obtain ⟨sameVisits, sameOutline, added⟩ := ih
    exact ⟨sameVisits, by simp [outline, sameOutline], added⟩

end JoinTree

namespace Candidate

variable {order : List Nat} {groups : List ConjunctGroup} {placement : Placement}

/-- Whether a condition has to wait for a join because it tests an extent of `nullSupplied`. -/
def waits (nullSupplied : ExtentSet) (condition : Condition) : Bool :=
  match condition.nullTestedSet with
  | .ok tested => tested.intersects nullSupplied
  | .error _ => false

/-- A condition of a group as one that waits for a join. -/
def waiting (key : ExtentSet) (condition : Condition) : JoinTree.PostFilter :=
  ⟨condition, key, condition.nullTestedSet.toOption.getD .empty⟩

/-! ## Sorting conditions out -/

theorem placeGroup_eq {conditions : List Condition}
    (ran : placeGroup nullSupplied position key conditions = .ok placement) :
    placement.placed = (conditions.filter (!waits nullSupplied ·)).map (position, ·) ∧
      placement.postFilters = (conditions.filter (waits nullSupplied)).map (waiting key) := by
  induction conditions generalizing placement with
  | nil =>
    cases ran
    exact ⟨rfl, rfl⟩
  | cons condition rest ih =>
    obtain ⟨tested, tests, ran⟩ := bind_succeeds.mp ran
    obtain ⟨others, placedOthers, ran⟩ := bind_succeeds.mp ran
    obtain ⟨samePlaced, sameFilters⟩ := ih placedOthers
    cases ran
    by_cases meets : tested.intersects nullSupplied = true
    · simp [waits, waiting, tests, meets, samePlaced, sameFilters, Except.toOption]
    · simp [waits, tests, meets, samePlaced, sameFilters]

/-- The conditions of the groups that the order binds go to the positions where they are bound,
except for those that wait; the latter keep the key of their group. -/
theorem placeGroups_eq
    (ran : placeGroups nullSupplied order groups = .ok placement) :
    placement.placed = (groups.flatMap fun group =>
        (group.key.boundPosition? order).elim [] fun position =>
          (group.conditions.filter (!waits nullSupplied ·)).map (position, ·)) ∧
      placement.postFilters = (groups.flatMap fun group =>
        (group.key.boundPosition? order).elim [] fun _ =>
          (group.conditions.filter (waits nullSupplied)).map (waiting group.key)) := by
  induction groups generalizing placement with
  | nil =>
    cases ran
    exact ⟨rfl, rfl⟩
  | cons group rest ih =>
    rw [placeGroups] at ran
    split at ran
    · rename_i unbound
      obtain ⟨samePlaced, sameFilters⟩ := ih ran
      simp [unbound, samePlaced, sameFilters]
    · rename_i position bound
      obtain ⟨own, placedOwn, ran⟩ := bind_succeeds.mp ran
      obtain ⟨others, placedOthers, ran⟩ := bind_succeeds.mp ran
      obtain ⟨ownPlaced, ownFilters⟩ := placeGroup_eq placedOwn
      obtain ⟨samePlaced, sameFilters⟩ := ih placedOthers
      cases ran
      simp [bound, ownPlaced, ownFilters, samePlaced, sameFilters]

theorem boundPosition?_lt {key visited : ExtentSet}
    (bound : key.boundPositionFrom visited order = some position) : position < order.length := by
  induction order generalizing visited position with
  | nil => cases bound
  | cons extent rest ih =>
    rw [ExtentSet.boundPositionFrom] at bound
    split at bound
    · cases bound
      simp
    · obtain ⟨before, below, rfl⟩ := Option.map_eq_some_iff.mp bound
      exact Nat.succ_lt_succ (ih below)

/-- Positions are given within the order. -/
theorem placed_within
    (ran : placeGroups nullSupplied order groups = .ok placement)
    (member : (position, condition) ∈ placement.placed) : position < order.length := by
  rw [(placeGroups_eq ran).1] at member
  obtain ⟨group, _, inside⟩ := List.mem_flatMap.mp member
  cases bound : group.key.boundPosition? order with
  | none => simp [bound] at inside
  | some place =>
    simp only [bound, Option.elim_some, List.mem_map, Prod.mk.injEq] at inside
    obtain ⟨_, _, rfl, _⟩ := inside
    exact boundPosition?_lt bound

/-- The conditions of one group if the order binds it. -/
private def boundConditions (order : List Nat) (group : ConjunctGroup) : List Condition :=
  (group.key.boundPosition? order).elim [] fun _ => group.conditions

private theorem placed_perm_bound
    (ran : placeGroups nullSupplied order groups = .ok placement) :
    (placement.placed.map (·.2) ++ placement.postFilters.map (·.condition)).Perm
      (groups.flatMap (boundConditions order)) := by
  obtain ⟨samePlaced, sameFilters⟩ := placeGroups_eq ran
  rw [samePlaced, sameFilters]
  clear ran samePlaced sameFilters
  induction groups with
  | nil => exact .refl _
  | cons group rest ih =>
    simp only [List.flatMap_cons, List.map_append]
    cases bound : group.key.boundPosition? order with
    | none => simpa [boundConditions, bound] using ih
    | some position =>
      have own : (group.conditions.filter (!waits nullSupplied ·) ++
          group.conditions.filter (waits nullSupplied)).Perm group.conditions := by
        simpa using List.filter_append_perm (!waits nullSupplied ·) group.conditions
      simp only [Option.elim_some, List.map_map, Function.comp_def, waiting, List.map_id',
        boundConditions, bound]
      refine List.Perm.trans ?_ (own.append ih)
      simp only [List.append_assoc]
      refine List.Perm.append_left _ ?_
      simp only [← List.append_assoc]
      exact List.Perm.append_right _ List.perm_append_comm

/-- As many conditions were placed as there are exactly if the order binds every group that has
some. -/
theorem placed_all_iff (ran : placeGroups nullSupplied order groups = .ok placement) :
    placement.placed.length + placement.postFilters.length =
        (groups.flatMap (·.conditions)).length ↔
      ∀ group ∈ groups, group.conditions ≠ [] → (group.key.boundPosition? order).isSome := by
  have placed := (placed_perm_bound ran).length_eq
  rw [List.length_append, List.length_map, List.length_map] at placed
  rw [placed]
  clear ran placed
  induction groups with
  | nil => simp
  | cons group rest ih =>
    have fewer : (rest.flatMap (boundConditions order)).length ≤
        (rest.flatMap (·.conditions)).length := by
      clear ih
      induction rest with
      | nil => exact Nat.le_refl _
      | cons group rest ih =>
        rw [List.flatMap_cons, List.flatMap_cons, List.length_append, List.length_append]
        refine Nat.add_le_add ?_ ih
        cases bound : group.key.boundPosition? order <;> simp [boundConditions, bound]
    rw [List.flatMap_cons, List.flatMap_cons, List.length_append, List.length_append,
      List.forall_mem_cons]
    refine Iff.trans ?_ (and_congr_right' ih)
    cases bound : group.key.boundPosition? order with
    | some position => simp [boundConditions, bound]
    | none =>
      rw [boundConditions, bound, Option.elim_none, List.length_nil, Option.isSome_none]
      have length : group.conditions = [] ↔ group.conditions.length = 0 :=
        List.length_eq_zero_iff.symm
      simp only [ne_eq, Bool.false_eq_true, imp_false, not_not, length]
      omega

/-- The conditions of a group can be sorted out exactly if all their null tests fit a set. -/
theorem placeGroup_succeedsIff (nullSupplied : ExtentSet) (position : Nat) (key : ExtentSet)
    (conditions : List Condition) :
    SucceedsIff (∀ condition ∈ conditions, ∃ tested, condition.nullTestedSet = .ok tested)
      (fun _ => True) (placeGroup nullSupplied position key conditions) := by
  induction conditions with
  | nil => exact fun _ member => absurd member List.not_mem_nil
  | cons condition rest ih =>
    have test : SucceedsIff (∃ tested, condition.nullTestedSet = .ok tested) (fun _ => True)
        condition.nullTestedSet := by
      cases ran : condition.nullTestedSet with
      | ok tested => exact ⟨tested, rfl⟩
      | error failure => exact ⟨by simp, trivial⟩
    refine (test.bind fun tested _ => ih.bind_ok fun others _ => ⟨_, rfl⟩).imp ?_ fun _ _ => id
    rw [List.forall_mem_cons]

/-- Conditions whose null tests fit a set can be sorted out. -/
theorem placeGroups_succeeds (nullSupplied : ExtentSet) (order : List Nat)
    (tests : ∀ group ∈ groups, ∀ condition ∈ group.conditions,
      ∃ tested, condition.nullTestedSet = .ok tested) :
    ∃ placement, placeGroups nullSupplied order groups = .ok placement := by
  induction groups with
  | nil => exact ⟨_, rfl⟩
  | cons group rest ih =>
    obtain ⟨testsOwn, testsRest⟩ := List.forall_mem_cons.mp tests
    obtain ⟨others, placedOthers⟩ := ih testsRest
    rw [placeGroups]
    split
    · exact ⟨others, placedOthers⟩
    · rename_i position _
      obtain ⟨own, placedOwn⟩ := (placeGroup_succeedsIff nullSupplied position group.key
        group.conditions).exists_iff.mpr testsOwn
      exact ⟨_, bind_succeeds.mpr ⟨_, placedOwn, bind_succeeds.mpr ⟨_, placedOthers, rfl⟩⟩⟩

/-- If as many conditions were placed as there are, each of them was placed once. -/
theorem placed_perm
    (ran : placeGroups nullSupplied order groups = .ok placement)
    (count : placement.placed.length + placement.postFilters.length =
      (groups.flatMap (·.conditions)).length) :
    (placement.placed.map (·.2) ++ placement.postFilters.map (·.condition)).Perm
      (groups.flatMap (·.conditions)) := by
  have placed := placed_perm_bound ran
  have part : (groups.flatMap (boundConditions order)).Sublist (groups.flatMap (·.conditions)) := by
    clear ran count placed
    induction groups with
    | nil => exact .refl _
    | cons group rest ih =>
      rw [List.flatMap_cons, List.flatMap_cons]
      refine List.Sublist.append ?_ ih
      cases bound : group.key.boundPosition? order <;> simp [boundConditions, bound]
  have whole := part.eq_of_length (by rw [← placed.length_eq, ← count]; simp)
  rwa [whole] at placed

/-! ## The conditions of each visit -/

private theorem flatMap_update {positions : List Nat} (conditionsOf : Nat → List Condition)
    (distinct : positions.Nodup) (member : position ∈ positions) (condition : Condition) :
    (positions.flatMap fun place =>
        if place = position then condition :: conditionsOf place else conditionsOf place).Perm
      (condition :: positions.flatMap conditionsOf) := by
  induction positions with
  | nil => cases member
  | cons head rest ih =>
    obtain ⟨fresh, distinct⟩ := List.nodup_cons.mp distinct
    rw [List.flatMap_cons, List.flatMap_cons]
    by_cases here : head = position
    · subst here
      have elsewhere : (rest.flatMap fun place =>
          if place = head then condition :: conditionsOf place else conditionsOf place) =
            rest.flatMap conditionsOf :=
        List.flatMap_congr fun place inside => if_neg (ne_of_mem_of_not_mem inside fresh)
      simp [elsewhere]
    · have later : position ∈ rest := (List.mem_cons.mp member).resolve_left (Ne.symm here)
      simp only [here, if_false]
      exact ((ih distinct later).append_left _).trans List.perm_middle

/-- The visits together get every condition that has a position. -/
theorem conditionsAt_perm (within : ∀ entry ∈ placement.placed, entry.1 < count) :
    ((List.range count).flatMap placement.conditionsAt).Perm (placement.placed.map (·.2)) := by
  obtain ⟨placed, filters⟩ := placement
  induction placed with
  | nil => simp [Placement.conditionsAt]
  | cons entry rest ih =>
    have ofRest := ih fun other member => within other (List.mem_cons_of_mem _ member)
    have first := flatMap_update (Placement.conditionsAt ⟨rest, filters⟩)
      (List.nodup_range (n := count))
      (List.mem_range.mpr (within entry List.mem_cons_self)) entry.2
    refine List.Perm.trans (.of_eq (List.flatMap_congr fun place _ => ?_))
      (first.trans (ofRest.cons _))
    by_cases here : entry.1 = place
    · simp [Placement.conditionsAt, here]
    · simp [Placement.conditionsAt, here, Ne.symm here]

private theorem conditions_mapIdx {leaves : List Visit} (given : Nat → List Condition)
    (start : Nat) (bare : ∀ leaf ∈ leaves, leaf.conditions = []) :
    ((leaves.mapIdx fun place leaf => leaf.addConditions (given (start + place))).flatMap
      (·.conditions)) = (List.range' start leaves.length).flatMap given := by
  induction leaves generalizing start with
  | nil => rfl
  | cons leaf rest ih =>
    have ofRest := ih (start + 1) fun other member => bare other (List.mem_cons_of_mem _ member)
    rw [List.mapIdx_cons, List.flatMap_cons, List.length_cons, List.range'_succ, List.flatMap_cons,
      ← ofRest]
    simp only [Visit.addConditions, bare leaf List.mem_cons_self, List.nil_append, Nat.add_zero,
      Nat.add_assoc, Nat.add_comm 1]

/-! ## Handing conditions out -/

theorem attachPostFilters_ok {top : JoinTree} {filters : List JoinTree.PostFilter}
    (ran : attachPostFilters top filters = (placed, .ok ())) :
    placed.visits = top.visits ∧ placed.outline = top.outline ∧
      placed.posts.flatten.Perm (filters.map (·.condition) ++ top.posts.flatten) := by
  induction filters generalizing top with
  | nil =>
    cases ran
    exact ⟨rfl, rfl, .refl _⟩
  | cons filter rest ih =>
    rw [attachPostFilters] at ran
    split at ran
    · rename_i next attached
      obtain ⟨sameVisits, sameOutline, added⟩ := JoinTree.attachLowest?_some attached
      obtain ⟨restVisits, restOutline, restAdded⟩ := ih ran
      refine ⟨restVisits.trans sameVisits, restOutline.trans sameOutline, restAdded.trans ?_⟩
      exact (added.append_left _).trans List.perm_middle
    · cases ran
    · cases ran

/-- What a successful distribution has done: it placed all conditions of the table, added those
with a position to the visits there and attached the others to joins. -/
theorem distributeConditions_ok {candidate : Candidate}
    (ran : candidate.distributeConditions table = (next, .ok ())) :
    ∃ nullSupplied placement, candidate.top.nullSupplied = .ok nullSupplied ∧
      placeGroups nullSupplied candidate.order table.groups = .ok placement ∧
      attachPostFilters (candidate.top.mapVisits fun position leaf =>
        leaf.addConditions (placement.conditionsAt position)) placement.postFilters =
          (next.top, .ok ()) ∧
      next = { candidate with top := next.top } ∧
      placement.placed.length + placement.postFilters.length = table.size := by
  rw [distributeConditions] at ran
  dsimp only at ran
  split at ran
  · cases ran
  · rename_i placement placed
    obtain ⟨nullSupplied, supplied, placed⟩ := bind_succeeds.mp placed
    split at ran
    · cases ran
    · rename_i top attached
      obtain ⟨rfl, outcome⟩ := Prod.mk.inj ran
      split at outcome
      · rename_i complete
        exact ⟨nullSupplied, placement, supplied, placed, attached, rfl, complete⟩
      · cases outcome

/-- Handing out conditions leaves the tree as it is apart from them. -/
theorem distributeConditions_outline {candidate : Candidate}
    (ran : candidate.distributeConditions table = (next, .ok ())) :
    next.top.outline = candidate.top.outline ∧ next.order = candidate.order := by
  obtain ⟨_, placement, _, _, attached, same, _⟩ := distributeConditions_ok ran
  refine ⟨?_, congrArg (·.order) same⟩
  rw [(attachPostFilters_ok attached).2.1]
  refine (JoinTree.mapVisits_pointwise _ _).outline ?_
  rintro before after ⟨_, rfl⟩
  rfl

/-- The visits and joins of a tree that had no conditions hold exactly the stored conditions once
these have been handed out. -/
theorem distributeConditions_perm {candidate : Candidate}
    (ran : candidate.distributeConditions table = (next, .ok ()))
    (ordered : candidate.order = candidate.top.visitOrder)
    (bare : ∀ leaf ∈ candidate.top.visits, leaf.conditions = [])
    (noPosts : candidate.top.posts.flatten = []) :
    (next.top.visits.flatMap (·.conditions) ++ next.top.posts.flatten).Perm table.conditions := by
  obtain ⟨nullSupplied, placement, _, placed, attached, _, complete⟩ := distributeConditions_ok ran
  obtain ⟨sameVisits, _, added⟩ := attachPostFilters_ok attached
  have within : ∀ entry ∈ placement.placed, entry.1 < candidate.top.visits.length := by
    intro entry member
    rw [← JoinTree.visitOrder_length, ← ordered]
    exact placed_within placed member
  have atVisits : next.top.visits.flatMap (·.conditions) =
      (List.range candidate.top.visits.length).flatMap placement.conditionsAt := by
    rw [sameVisits, JoinTree.visits_mapVisits, List.range_eq_range']
    simpa using conditions_mapIdx placement.conditionsAt 0 bare
  have afterJoins : next.top.posts.flatten.Perm (placement.postFilters.map (·.condition)) := by
    rw [(JoinTree.mapVisits_pointwise _ _).posts, noPosts, List.append_nil] at added
    exact added
  rw [atVisits]
  exact ((conditionsAt_perm within).append afterJoins).trans (placed_perm placed complete)

end Candidate
end ExtentPlanner
