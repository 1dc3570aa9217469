import ExtentPlanner.Proofs.StoredConjuncts
import ExtentPlanner.Proofs.WaitingConditions

/-! Distributing the conditions of a table. Each condition reads exactly the extents of its group's
key, so a group that the order binds goes to a visit after all that its conditions read; those that
wait are attached to joins, because the whole tree suits them. The only failure is therefore a
condition that reads an extent outside the tree. -/
namespace ExtentPlanner

namespace ConjunctTable

variable {table : ConjunctTable} {group : ConjunctGroup} {condition : Condition}

theorem mem_conditions_iff :
    condition ∈ table.conditions ↔ ∃ group ∈ table.groups, condition ∈ group.conditions :=
  List.mem_flatMap

theorem Sorted.key_members (sorted : table.Sorted) (stored : group ∈ table.groups)
    (inside : condition ∈ group.conditions) :
    (∀ extent ∈ condition.extents, extent < maxExtents) ∧
      ∀ extent, group.key.includes extent = true ↔ extent ∈ condition.extents :=
  ExtentSet.ofList_members (sorted group stored condition inside).2

/-- Where the order binds the key of a condition, everything that the condition reads has been
visited. -/
theorem Sorted.bound_reads (sorted : table.Sorted) (stored : group ∈ table.groups)
    (inside : condition ∈ group.conditions) (small : ∀ extent ∈ visited, extent < maxExtents)
    (bound : group.key.boundPosition? visited = some position) :
    ∀ extent ∈ condition.extents, extent ∈ visited.take (position + 1) := fun extent read =>
  ExtentSet.boundPosition?_covers small bound extent
    (((sorted.key_members stored inside).2 extent).mpr read)

/-- An order binds the key of a group exactly if it visits what the conditions of the group read. -/
theorem Sorted.bound_iff (sorted : table.Sorted) (stored : group ∈ table.groups)
    (inside : condition ∈ group.conditions) (small : ∀ extent ∈ visited, extent < maxExtents)
    (nonempty : visited ≠ []) : (group.key.boundPosition? visited).isSome ↔
      ∀ extent ∈ condition.extents, extent ∈ visited := by
  constructor
  · intro bound extent read
    obtain ⟨position, found⟩ := Option.isSome_iff_exists.mp bound
    exact List.mem_of_mem_take (sorted.bound_reads stored inside small found extent read)
  · exact fun covers => ExtentSet.boundPosition?_isSome small nonempty fun extent read =>
      covers extent (((sorted.key_members stored inside).2 extent).mp read)

theorem Sorted.tested_members (sorted : table.Sorted) (member : condition ∈ table.conditions) :
    ∃ tested, condition.nullTestedSet = .ok tested ∧
      ∀ extent, tested.includes extent = true ↔ extent ∈ condition.nullTested := by
  obtain ⟨group, stored, inside⟩ := mem_conditions_iff.mp member
  have small := (sorted.key_members stored inside).1
  obtain ⟨tested, ran⟩ := ExtentSet.ofList_ok fun extent inTests =>
    small extent (condition.nullTested_subset extent inTests)
  exact ⟨tested, ran, (ExtentSet.ofList_members ran).2⟩

end ConjunctTable

namespace JoinTree

/-- Whether a condition tests an extent that a tree may fill with nulls. -/
def Waits (tree : JoinTree) (condition : Condition) : Prop :=
  ∃ extent ∈ condition.nullTested, extent ∈ tree.filled

instance (tree : JoinTree) (condition : Condition) : Decidable (tree.Waits condition) :=
  inferInstanceAs (Decidable (∃ extent ∈ condition.nullTested, _))

/-- Whether a tree visits everything that the conditions of a table read. -/
def Covers (tree : JoinTree) (table : ConjunctTable) : Prop :=
  ∀ condition ∈ table.conditions, ∀ extent ∈ condition.extents, extent ∈ tree.visitOrder

instance (tree : JoinTree) (table : ConjunctTable) : Decidable (tree.Covers table) :=
  inferInstanceAs (Decidable (∀ condition ∈ table.conditions, _))

theorem Covers.congr (rearranged : Rearranged tree other) (covers : Covers tree table) :
    other.Covers table := fun condition stored extent read =>
  rearranged.visitOrder_perm.mem_iff.mp (covers condition stored extent read)

theorem Waits.congr (rearranged : Rearranged tree other) (condition : Condition) :
    tree.Waits condition ↔ other.Waits condition := by
  simp only [Waits, rearranged.filled]

theorem Waits.of_subtree {tree : JoinTree} (below : sub ∈ tree.subtrees)
    (waits : sub.Waits condition) : tree.Waits condition := by
  obtain ⟨extent, tests, fill⟩ := waits
  exact ⟨extent, tests, filled_of_subtree below extent fill⟩

/-- A condition after a join that comes with the extents which it reads and tests. -/
structure PostFilter.Faithful (filter : PostFilter) : Prop where
  references : ∀ extent,
    filter.references.includes extent = true ↔ extent ∈ filter.condition.extents
  tested : ∀ extent, filter.tested.includes extent = true ↔ extent ∈ filter.condition.nullTested

theorem PostFilter.Faithful.suits_iff {filter : PostFilter} (faithful : filter.Faithful)
    (tree : JoinTree) : filter.Suits tree ↔ tree.Waits filter.condition ∧
      ∀ extent ∈ filter.condition.extents, extent ∈ tree.visitOrder := by
  simp only [Suits, faithful.references, faithful.tested]
  rw [and_comm, Waits]
  simp only [and_comm]

theorem small_of_rearranged (rearranged : Rearranged tree other)
    (small : ∀ extent ∈ tree.visitOrder, extent < maxExtents) :
    ∀ extent ∈ other.visitOrder, extent < maxExtents := fun extent visited =>
  small extent (rearranged.visitOrder_perm.mem_iff.mpr visited)

end JoinTree

namespace Candidate

open JoinTree

variable {table : ConjunctTable} {order : JoinTree} {condition : Condition}
  {group : ConjunctGroup} {supplied : ExtentSet} {placement : Placement}

theorem waits_iff (sorted : table.Sorted) (member : condition ∈ table.conditions)
    (fills : order.nullSupplied = .ok supplied) :
    waits supplied condition = true ↔ order.Waits condition := by
  obtain ⟨tested, ran, members⟩ := sorted.tested_members member
  rw [waits, ran]
  simp only [ExtentSet.intersects_iff, members, nullSupplied_members fills, Waits]

theorem waiting_faithful (sorted : table.Sorted) (stored : group ∈ table.groups)
    (inside : condition ∈ group.conditions) : (waiting group.key condition).Faithful := by
  obtain ⟨tested, ran, members⟩ := sorted.tested_members
    (ConjunctTable.mem_conditions_iff.mpr ⟨group, stored, inside⟩)
  refine ⟨(sorted.key_members stored inside).2, ?_⟩
  simpa only [waiting, ran, Except.toOption, Option.getD_some] using members

/-! ## Conditions sorted out -/

theorem mem_placed_iff (ran : placeGroups supplied visited table.groups = .ok placement) :
    (position, condition) ∈ placement.placed ↔ ∃ group ∈ table.groups,
      group.key.boundPosition? visited = some position ∧ condition ∈ group.conditions ∧
        waits supplied condition = false := by
  rw [(placeGroups_eq ran).1, List.mem_flatMap]
  refine exists_congr fun group => and_congr_right fun _ => ?_
  cases bound : group.key.boundPosition? visited with
  | none => simp
  | some place =>
    simp only [Option.elim_some, List.mem_map, List.mem_filter, Prod.mk.injEq, Option.some.injEq,
      Bool.not_eq_true']
    constructor
    · rintro ⟨_, ⟨inside, stays⟩, rfl, rfl⟩
      exact ⟨rfl, inside, stays⟩
    · rintro ⟨rfl, inside, stays⟩
      exact ⟨condition, ⟨inside, stays⟩, rfl, rfl⟩

theorem mem_postFilters_iff (ran : placeGroups supplied visited table.groups = .ok placement) :
    filter ∈ placement.postFilters ↔ ∃ group ∈ table.groups,
      (group.key.boundPosition? visited).isSome ∧ ∃ condition ∈ group.conditions,
        waits supplied condition = true ∧ waiting group.key condition = filter := by
  rw [(placeGroups_eq ran).2, List.mem_flatMap]
  refine exists_congr fun group => and_congr_right fun _ => ?_
  cases bound : group.key.boundPosition? visited with
  | none => simp
  | some place =>
    simp only [Option.elim_some, List.mem_map, List.mem_filter, Option.isSome_some, true_and,
      and_assoc]

theorem mem_conditionsAt_iff :
    condition ∈ placement.conditionsAt position ↔ (position, condition) ∈ placement.placed := by
  simp only [Placement.conditionsAt, List.mem_map, List.mem_filter, beq_iff_eq]
  constructor
  · rintro ⟨entry, ⟨listed, rfl⟩, rfl⟩
    exact listed
  · intro listed
    exact ⟨_, ⟨listed, rfl⟩, rfl⟩

/-- A condition that goes to a visit reads only what has been visited there. -/
theorem placed_reads (sorted : table.Sorted)
    (small : ∀ extent ∈ visited, extent < maxExtents)
    (ran : placeGroups supplied visited table.groups = .ok placement)
    (placed : (position, condition) ∈ placement.placed) : condition ∈ table.conditions ∧
      ∀ extent ∈ condition.extents, extent ∈ visited.take (position + 1) := by
  obtain ⟨group, stored, bound, inside, _⟩ := (mem_placed_iff ran).mp placed
  exact ⟨ConjunctTable.mem_conditions_iff.mpr ⟨group, stored, inside⟩,
    sorted.bound_reads stored inside small bound⟩

/-- Every condition that waits is one of the table, with its key and its tests. -/
theorem postFilters_waiting (sorted : table.Sorted) (fills : order.nullSupplied = .ok supplied)
    (placed : placeGroups supplied visited table.groups = .ok placement)
    (listed : filter ∈ placement.postFilters) :
    ∃ group ∈ table.groups, ∃ condition ∈ group.conditions,
      (group.key.boundPosition? visited).isSome ∧ order.Waits condition ∧
        filter = waiting group.key condition := by
  obtain ⟨group, stored, bound, condition, inside, waits, rfl⟩ :=
    (mem_postFilters_iff placed).mp listed
  have member : condition ∈ table.conditions :=
    ConjunctTable.mem_conditions_iff.mpr ⟨group, stored, inside⟩
  exact ⟨group, stored, condition, inside, bound, (waits_iff sorted member fills).mp waits, rfl⟩

theorem postFilters_faithful (sorted : table.Sorted) (fills : order.nullSupplied = .ok supplied)
    (placed : placeGroups supplied visited table.groups = .ok placement) :
    ∀ filter ∈ placement.postFilters, filter.Faithful := by
  intro filter listed
  obtain ⟨group, stored, condition, inside, _, _, rfl⟩ :=
    postFilters_waiting sorted fills placed listed
  exact waiting_faithful sorted stored inside

/-- Once all conditions have been placed, those that wait are those of the table that test an extent
which the tree may fill, in order. -/
theorem postFilters_conditions (sorted : table.Sorted) (fills : order.nullSupplied = .ok supplied)
    (placed : placeGroups supplied visited table.groups = .ok placement)
    (complete : placement.placed.length + placement.postFilters.length = table.size) :
    placement.postFilters.map (·.condition) =
      table.conditions.filter fun condition => order.Waits condition := by
  rw [(placeGroups_eq placed).2, List.map_flatMap, ConjunctTable.conditions, List.filter_flatMap]
  refine List.flatMap_congr fun group stored => ?_
  by_cases empty : group.conditions = []
  · cases group.key.boundPosition? visited <;> simp [empty]
  · obtain ⟨position, bound⟩ := Option.isSome_iff_exists.mp
      ((placed_all_iff placed).mp complete group stored empty)
    simp only [bound, Option.elim_some, List.map_map, Function.comp_def, waiting, List.map_id']
    refine List.filter_congr fun condition inside => ?_
    have member := ConjunctTable.mem_conditions_iff.mpr ⟨group, stored, inside⟩
    rw [Bool.eq_iff_iff, waits_iff sorted member fills, decide_eq_true_iff]

theorem mem_waiting_iff (sorted : table.Sorted) (fills : order.nullSupplied = .ok supplied)
    (placed : placeGroups supplied visited table.groups = .ok placement)
    (complete : placement.placed.length + placement.postFilters.length = table.size) :
    condition ∈ placement.postFilters.map (·.condition) ↔
      condition ∈ table.conditions ∧ order.Waits condition := by
  rw [postFilters_conditions sorted fills placed complete, List.mem_filter, decide_eq_true_iff]

theorem postFilters_read (sorted : table.Sorted) (fills : order.nullSupplied = .ok supplied)
    (placed : placeGroups supplied visited table.groups = .ok placement) :
    ∀ filter ∈ placement.postFilters, ∃ extent, filter.references.includes extent = true := by
  intro filter listed
  obtain ⟨group, stored, condition, inside, _, ⟨extent, tests, _⟩, rfl⟩ :=
    postFilters_waiting sorted fills placed listed
  exact ⟨extent, ((sorted.key_members stored inside).2 extent).mpr
    (condition.nullTested_subset extent tests)⟩

/-! ## What comes out of a distribution -/

private theorem complete_iff_covers (sorted : table.Sorted)
    (small : ∀ extent ∈ order.visitOrder, extent < maxExtents)
    (placed : placeGroups supplied order.visitOrder table.groups = .ok placement) :
    placement.placed.length + placement.postFilters.length = table.size ↔
      order.Covers table := by
  refine Iff.trans (placed_all_iff placed) ⟨fun bound condition member => ?_,
    fun covers group stored nonempty => ?_⟩
  · obtain ⟨group, stored, inside⟩ := ConjunctTable.mem_conditions_iff.mp member
    exact (sorted.bound_iff stored inside small order.visitOrder_ne_nil).mp
      (bound group stored (List.ne_nil_of_mem inside))
  · obtain ⟨condition, inside⟩ := List.exists_mem_of_ne_nil _ nonempty
    exact (sorted.bound_iff stored inside small order.visitOrder_ne_nil).mpr
      (covers condition (ConjunctTable.mem_conditions_iff.mpr ⟨group, stored, inside⟩))

private theorem postFilters_suit (sorted : table.Sorted)
    (small : ∀ extent ∈ order.visitOrder, extent < maxExtents)
    (fills : order.nullSupplied = .ok supplied)
    (placed : placeGroups supplied order.visitOrder table.groups = .ok placement)
    {visited : JoinTree} (rearranged : Rearranged order visited) :
    ∀ filter ∈ placement.postFilters, filter.Suits visited := by
  intro filter listed
  obtain ⟨group, stored, condition, inside, bound, waits, rfl⟩ :=
    postFilters_waiting sorted fills placed listed
  rw [← PostFilter.suits_iff_of_rearranged rearranged,
    (waiting_faithful sorted stored inside).suits_iff]
  exact ⟨waits, (sorted.bound_iff stored inside small order.visitOrder_ne_nil).mp bound⟩

/-- Conditions can be distributed exactly if they read nothing but what is visited, and there is no
other failure. -/
theorem distributeConditions_succeedsIff {candidate : Candidate} (sorted : table.Sorted)
    (ordered : candidate.order = candidate.top.visitOrder)
    (small : ∀ extent ∈ candidate.top.visitOrder, extent < maxExtents) :
    SucceedsIff (candidate.top.Covers table) (fun failure => ∃ missing,
      failure = .internal (.conditionsOutsidePlan missing table.size))
      (candidate.distributeConditions table).2 := by
  obtain ⟨supplied, fills⟩ := nullSupplied_ok small
  have tests : ∀ group ∈ table.groups, ∀ condition ∈ group.conditions,
      ∃ tested, condition.nullTestedSet = .ok tested := fun group stored condition inside =>
    (sorted.tested_members (ConjunctTable.mem_conditions_iff.mpr ⟨group, stored, inside⟩)).imp
      fun _ => And.left
  obtain ⟨placement, placed⟩ := placeGroups_succeeds supplied candidate.top.visitOrder tests
  have complete := complete_iff_covers sorted small placed
  have visited := candidate.top.rearranged_mapVisits (fun position leaf =>
    leaf.addConditions (placement.conditionsAt position)) fun _ _ => rfl
  obtain ⟨top, attached⟩ := attachPostFilters_succeeds (small_of_rearranged visited small)
    (postFilters_suit sorted small fills placed visited)
  have planned : (do placeGroups (← candidate.top.nullSupplied) candidate.order table.groups) =
      .ok placement := bind_succeeds.mpr ⟨supplied, fills, ordered ▸ placed⟩
  rw [distributeConditions]
  dsimp only
  rw [planned]
  dsimp only
  rw [attached]
  dsimp only
  split
  · rename_i all
    exact complete.mp all
  · rename_i some
    exact ⟨mt complete.mpr some, _, rfl⟩

end Candidate

end ExtentPlanner
