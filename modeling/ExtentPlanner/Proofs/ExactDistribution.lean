import ExtentPlanner.Proofs.NullTestPlacement

/-! Where each condition of a table ends up. A condition that tests for null what the tree may fill
waits behind some join; every other one goes to the first visit at which all that it reads has been
visited. A tree is settled by its outline, its visits and what stands behind its joins, so that this
determines the tree after a distribution up to the joins behind which conditions wait. -/
namespace ExtentPlanner

namespace Condition

variable {condition : Condition} {order : List Nat} {position other : Nat}

/-- Whether all that a condition reads is in an order up to and including a position. -/
def ReadableAt (condition : Condition) (order : List Nat) (position : Nat) : Prop :=
  ∀ extent ∈ condition.extents, extent ∈ order.take (position + 1)

instance (condition : Condition) (order : List Nat) (position : Nat) :
    Decidable (condition.ReadableAt order position) :=
  inferInstanceAs (Decidable (∀ extent ∈ condition.extents, _))

/-- Whether a position is the least of an order at which a condition is readable. -/
def FirstReadableAt (condition : Condition) (order : List Nat) (position : Nat) : Prop :=
  position < order.length ∧ condition.ReadableAt order position ∧
    ∀ earlier < position, ¬condition.ReadableAt order earlier

instance (condition : Condition) (order : List Nat) (position : Nat) :
    Decidable (condition.FirstReadableAt order position) :=
  inferInstanceAs (Decidable (_ ∧ _ ∧ _))

theorem FirstReadableAt.unique (first : condition.FirstReadableAt order position)
    (second : condition.FirstReadableAt order other) : position = other := by
  rcases Nat.lt_trichotomy position other with before | same | after
  · exact (second.2.2 position before first.2.1).elim
  · exact same
  · exact (first.2.2 other after second.2.1).elim

/-- A condition that reads nothing is readable from the start. -/
theorem firstReadableAt_zero (nothing : condition.extents = []) (nonempty : order ≠ []) :
    condition.FirstReadableAt order 0 := by
  refine ⟨List.length_pos_of_ne_nil nonempty, fun extent read => ?_, fun _ before => ?_⟩
  · rw [nothing] at read
    cases read
  · exact (Nat.not_lt_zero _ before).elim

end Condition

namespace ConjunctTable

variable {table : ConjunctTable} {group : ConjunctGroup} {condition : Condition}
  {order : List Nat} {position : Nat}

/-- An order binds the key of a group at the position at which the conditions of the group become
readable. -/
theorem Sorted.boundPosition?_iff (sorted : table.Sorted) (stored : group ∈ table.groups)
    (inside : condition ∈ group.conditions) (small : ∀ extent ∈ order, extent < maxExtents) :
    group.key.boundPosition? order = some position ↔ condition.FirstReadableAt order position := by
  have readable : ∀ {place}, group.key.boundPosition? order = some place →
      condition.FirstReadableAt order place := fun bound => by
    refine ⟨Candidate.boundPosition?_lt bound, sorted.bound_reads stored inside small bound,
      fun earlier before reads => ?_⟩
    obtain ⟨extent, member, missed⟩ := ExtentSet.boundPosition?_misses small bound before
    exact missed (reads extent (((sorted.key_members stored inside).2 extent).mp member))
  refine ⟨readable, fun first => ?_⟩
  have nonempty : order ≠ [] := List.ne_nil_of_length_pos (Nat.zero_lt_of_lt first.1)
  obtain ⟨place, bound⟩ := Option.isSome_iff_exists.mp
    ((sorted.bound_iff stored inside small nonempty).mpr
      fun extent read => List.mem_of_mem_take (first.2.1 extent read))
  rw [bound, (readable bound).unique first]

/-- A condition that reads only what an order visits is readable from some position on. -/
theorem Sorted.exists_firstReadableAt (sorted : table.Sorted)
    (member : condition ∈ table.conditions) (small : ∀ extent ∈ order, extent < maxExtents)
    (nonempty : order ≠ []) (visited : ∀ extent ∈ condition.extents, extent ∈ order) :
    ∃ position, condition.FirstReadableAt order position := by
  obtain ⟨group, stored, inside⟩ := mem_conditions_iff.mp member
  obtain ⟨position, bound⟩ := Option.isSome_iff_exists.mp
    ((sorted.bound_iff stored inside small nonempty).mpr visited)
  exact ⟨position, (sorted.boundPosition?_iff stored inside small).mp bound⟩

end ConjunctTable

namespace JoinTree

/-! ## A tree from its views -/

theorem posts_length_outline (tree : JoinTree) : tree.outline.posts.length = tree.posts.length := by
  induction tree with
  | visit leaf => rfl
  | join kind left right post lefts rights => simp [outline, posts, lefts, rights]
  | sort spec input inputs | aggregate _ _ input inputs => exact inputs

theorem eq_of_views {first second : JoinTree} (outlines : first.outline = second.outline)
    (visits : first.visits = second.visits) (posts : first.posts = second.posts) :
    first = second := by
  induction first generalizing second with
  | visit leaf =>
    cases second with
    | visit other => rw [List.singleton_inj.mp visits]
    | join | sort | aggregate => cases outlines
  | join kind left right post lefts rights =>
    cases second with
    | visit | sort | aggregate => cases outlines
    | join kind' left' right' post' =>
      obtain ⟨rfl, outlineLeft, outlineRight, _⟩ := join.inj outlines
      have visitsLeft : left.visits.length = left'.visits.length := by
        simpa [visits_outline] using congrArg (List.length ·.visits) outlineLeft
      have postsLeft : left.posts.length = left'.posts.length := by
        rw [← posts_length_outline, outlineLeft, posts_length_outline]
      obtain ⟨sameLeft, sameRight⟩ := List.append_inj visits visitsLeft
      rw [JoinTree.posts, JoinTree.posts, List.append_assoc, List.append_assoc] at posts
      obtain ⟨belowLeft, rest⟩ := List.append_inj posts postsLeft
      obtain ⟨belowRight, here⟩ := List.append_inj' rest rfl
      rw [lefts outlineLeft sameLeft belowLeft, rights outlineRight sameRight belowRight,
        List.singleton_inj.mp here]
  | sort spec input inputs =>
    cases second with
    | visit | join | aggregate => cases outlines
    | sort spec' input' =>
      obtain ⟨rfl, outlineInput⟩ := sort.inj outlines
      rw [inputs outlineInput visits posts]
  | aggregate grouping presorted input inputs =>
    cases second with
    | visit | join | sort => cases outlines
    | aggregate grouping' presorted' input' =>
      obtain ⟨rfl, rfl, outlineInput⟩ := aggregate.inj outlines
      rw [inputs outlineInput visits posts]

theorem posts_eq_joinSites (tree : JoinTree) : tree.posts = tree.joinSites.map (·.post) := by
  induction tree with
  | visit leaf => rfl
  | join kind left right post lefts rights =>
    have same : ∀ site : JoinSite, (site.under kind right.visitOrder).post = site.post := by
      cases kind <;> exact fun _ => rfl
    simp [posts, joinSites, lefts, rights, Function.comp_def, same]
  | sort spec input inputs | aggregate _ _ input inputs => exact inputs

theorem PostsAdded.posts {before after : JoinTree} (adds : PostsAdded before after added) :
    after.posts = List.zipWith (· ++ ·) before.posts added := by
  rw [posts_eq_joinSites, posts_eq_joinSites, adds.sites, List.map_zipWith, List.zipWith_map_left]
  rfl

/-- The tree `after` is `tree` with the conditions of a table: at each visit those that first become
readable there and do not wait, behind each join those that `added` has for it. -/
structure Allotted (tree : JoinTree) (table : ConjunctTable) (added : List (List Condition))
    (after : JoinTree) : Prop where
  outline : after.outline = tree.outline
  visits : after.visits = tree.visits.mapIdx fun position leaf =>
    leaf.addConditions (table.conditions.filter fun condition =>
      ¬tree.Waits condition ∧ condition.FirstReadableAt tree.visitOrder position)
  posts : after.posts = List.zipWith (· ++ ·) tree.posts added

theorem Allotted.unique (first : Allotted tree table added after)
    (second : Allotted tree table added other) : other = after :=
  eq_of_views (second.outline.trans first.outline.symm) (second.visits.trans first.visits.symm)
    (second.posts.trans first.posts.symm)

end JoinTree

namespace Candidate

open JoinTree

variable {table : ConjunctTable} {tree : JoinTree} {condition : Condition}
  {supplied : ExtentSet} {placement : Placement}

/-! ## Conditions sorted out -/

/-- Of conditions that all go to one place, those at a position. -/
private theorem conditions_placed (own : List Condition) (place position : Nat) :
    ((own.map (place, ·)).filter fun (entry : Nat × Condition) => entry.1 == position).map (·.2) =
      if place = position then own else [] := by
  by_cases here : place = position
  · simp [here, List.filter_map, Function.comp_def]
  · simp [here]

/-- A visit gets the conditions that first become readable there and do not wait. -/
theorem conditionsAt_eq (sorted : table.Sorted)
    (small : ∀ extent ∈ tree.visitOrder, extent < maxExtents)
    (fills : tree.nullSupplied = .ok supplied)
    (placed : placeGroups supplied tree.visitOrder table.groups = .ok placement) (position : Nat) :
    placement.conditionsAt position = table.conditions.filter fun condition =>
      ¬tree.Waits condition ∧ condition.FirstReadableAt tree.visitOrder position := by
  rw [Placement.conditionsAt, (placeGroups_eq placed).1, List.filter_flatMap, List.map_flatMap,
    ConjunctTable.conditions, List.filter_flatMap]
  refine List.flatMap_congr fun group stored => ?_
  have binds : ∀ condition ∈ group.conditions,
      (group.key.boundPosition? tree.visitOrder = some position ↔
        condition.FirstReadableAt tree.visitOrder position) := fun _ inside =>
    sorted.boundPosition?_iff stored inside small
  have nothing : group.key.boundPosition? tree.visitOrder ≠ some position →
      (group.conditions.filter fun condition =>
        ¬tree.Waits condition ∧ condition.FirstReadableAt tree.visitOrder position) = [] :=
    fun elsewhere => List.filter_eq_nil_iff.mpr fun condition inside => by
      simp [← binds condition inside, elsewhere]
  cases bound : group.key.boundPosition? tree.visitOrder with
  | none => rw [nothing (by simp [bound]), Option.elim_none, List.filter_nil, List.map_nil]
  | some place =>
    rw [Option.elim_some, conditions_placed]
    by_cases here : place = position
    · subst here
      rw [if_pos rfl]
      refine List.filter_congr fun condition inside => ?_
      have member := ConjunctTable.mem_conditions_iff.mpr ⟨group, stored, inside⟩
      rw [Bool.eq_iff_iff, Bool.not_eq_true', ← Bool.not_eq_true, waits_iff sorted member fills,
        decide_eq_true_iff]
      exact (and_iff_left ((binds condition inside).mp bound)).symm
    · rw [if_neg here, nothing (by simpa [bound] using here)]

/-! ## The tree after a distribution -/

/-- What the visits and the joins have once the conditions of a table have been distributed. -/
theorem distributeConditions_allotted {next : Candidate} (sorted : table.Sorted)
    (distinct : tree.visitOrder.Nodup) (small : ∀ extent ∈ tree.visitOrder, extent < maxExtents)
    (ran : (ofTree tree).distributeConditions table = (next, .ok ())) :
    ∃ added, added.length = tree.posts.length ∧
      added.flatten.Perm (table.conditions.filter fun condition => tree.Waits condition) ∧
      Allotted tree table added next.top := by
  have outline := (distributeConditions_outline ran).1
  obtain ⟨supplied, placement, fills, placed, attached, _, complete⟩ := distributeConditions_ok ran
  dsimp only [ofTree] at fills placed attached
  have handed := tree.mapVisits_pointwise fun position leaf =>
    leaf.addConditions (placement.conditionsAt position)
  have visited := tree.rearranged_mapVisits (fun position leaf =>
    leaf.addConditions (placement.conditionsAt position)) fun _ _ => rfl
  obtain ⟨added, adds, all⟩ := attachPostFilters_adds (small_of_rearranged visited small)
    (visited.visitOrder_perm.nodup_iff.mp distinct) (postFilters_faithful sorted fills placed)
    attached
  refine ⟨added, ?_, ?_, outline, ?_, ?_⟩
  · rw [adds.length, ← List.length_map (·.post), ← posts_eq_joinSites, handed.posts]
  · rwa [postFilters_conditions sorted fills placed complete] at all
  · rw [(attachPostFilters_ok attached).1, visits_mapVisits]
    simp only [conditionsAt_eq sorted small fills placed]
  · rw [adds.posts, handed.posts]

/-- Conditions can be distributed exactly if the tree visits all that they read. Then each condition
that waits is behind one join, and each other one at the first visit at which it is readable;
apart from that the candidate is as it was. -/
theorem distributes_exactly_iff (filled : table.Filled) (distinct : tree.visitOrder.Nodup)
    (small : ∀ extent ∈ tree.visitOrder, extent < maxExtents) :
    ((∃ next, (ofTree tree).distributeConditions table = (next, .ok ())) ↔ tree.Covers table) ∧
      ∀ next, (ofTree tree).distributeConditions table = (next, .ok ()) →
        next = { ofTree tree with top := next.top } ∧
        (∀ condition ∈ table.conditions,
          ∃ position, condition.FirstReadableAt tree.visitOrder position) ∧
        ∃ added, added.length = tree.posts.length ∧
          added.flatten.Perm (table.conditions.filter fun condition => tree.Waits condition) ∧
          ∀ after, Allotted tree table added after ↔ after = next.top := by
  have sorted := filled.sorted
  have settled : SucceedsIff (tree.Covers table) _ ((ofTree tree).distributeConditions table).2 :=
    distributeConditions_succeedsIff sorted rfl small
  have succeeds : (∃ next, (ofTree tree).distributeConditions table = (next, .ok ())) ↔
      tree.Covers table := by
    refine Iff.trans ⟨?_, ?_⟩ settled.exists_iff
    · rintro ⟨next, ran⟩
      exact ⟨(), congrArg (·.2) ran⟩
    · rintro ⟨_, ran⟩
      exact ⟨_, Prod.ext rfl ran⟩
  refine ⟨succeeds, fun next ran => ?_⟩
  obtain ⟨_, _, _, _, _, kept, _⟩ := distributeConditions_ok ran
  obtain ⟨added, length, all, allotted⟩ :=
    distributeConditions_allotted sorted distinct small ran
  refine ⟨kept, fun condition stored => ?_, added, length, all, fun after =>
    ⟨allotted.unique, fun same => same ▸ allotted⟩⟩
  exact sorted.exists_firstReadableAt stored small tree.visitOrder_ne_nil
    (succeeds.mp ⟨next, ran⟩ condition stored)

/-- A person has the name that its pet has for its owner. -/
def namesOwner : Condition := .compare .equal (.path 0 ["name"]) (.path 1 ["owner"])

/-- Conditions that read two extents, one that may be missing, and none. -/
def ownerConditions : ConjunctTable :=
  (ConjunctTable.empty.addAll [namesOwner, noToy, .truth .isFalse]).1

theorem ownerConditions_filled : ownerConditions.Filled := ConjunctTable.Filled.empty.addAll _

/-- The test for a missing toy waits; the names are compared at the second visit, and the first one
never passes. -/
theorem distributes_ownerConditions :
    ownerConditions.Filled ∧ petsWithToys.visitOrder.Nodup ∧
      (∀ extent ∈ petsWithToys.visitOrder, extent < maxExtents) ∧
      ∃ next added, (ofTree petsWithToys).distributeConditions ownerConditions = (next, .ok ()) ∧
        added.flatten.Perm [noToy] ∧ Allotted petsWithToys ownerConditions added next.top ∧
        namesOwner.FirstReadableAt petsWithToys.visitOrder 1 ∧
        (Condition.truth .isFalse).FirstReadableAt petsWithToys.visitOrder 0 := by
  have filled := ownerConditions_filled
  have distinct : petsWithToys.visitOrder.Nodup := by decide
  have small : ∀ extent ∈ petsWithToys.visitOrder, extent < maxExtents := by decide
  have exact := distributes_exactly_iff filled distinct small
  have covers : petsWithToys.Covers ownerConditions := by decide
  obtain ⟨next, ran⟩ := exact.1.mpr covers
  obtain ⟨_, _, added, _, waiting, allotted⟩ := exact.2 next ran
  have toy : (ownerConditions.conditions.filter fun condition => petsWithToys.Waits condition) =
      [noToy] := by decide
  rw [toy] at waiting
  exact ⟨filled, distinct, small, next, added, ran, waiting, (allotted _).mpr rfl, by decide,
    Condition.firstReadableAt_zero rfl petsWithToys.visitOrder_ne_nil⟩

end Candidate

end ExtentPlanner
