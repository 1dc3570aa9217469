import ExtentPlanner.Proofs.ConditionDistribution

/-! Where conditions stand relative to an outer join. A condition that waits for a join stands
inside the right side of an outer join in every join order or in none. A condition that goes to a
visit stands where the last extent that it reads is visited, and this depends on the join order if
it reads the right side together with extents that inner joins move past the outer join. -/
namespace ExtentPlanner

namespace JoinTree

/-- Whether a tree holds a condition at a visit or after a join. -/
def Carries (tree : JoinTree) (condition : Condition) : Prop :=
  (∃ leaf ∈ tree.visits, condition ∈ leaf.conditions) ∨ condition ∈ tree.posts.flatten

/-- Whether a tree holds a condition inside the right side of an outer join, which is known by the
extents of its sides. -/
def CarriesInside (tree : JoinTree) (outer : OuterJoin) (condition : Condition) : Prop :=
  ∃ found ∈ tree.outerJoins, found.left.visitOrder.Perm outer.left.visitOrder ∧
    found.right.visitOrder.Perm outer.right.visitOrder ∧ found.right.Carries condition

instance (tree : JoinTree) (condition : Condition) : Decidable (tree.Carries condition) :=
  inferInstanceAs (Decidable (_ ∨ _))

instance (tree : JoinTree) (outer : OuterJoin) (condition : Condition) :
    Decidable (tree.CarriesInside outer condition) :=
  inferInstanceAs (Decidable (∃ found ∈ tree.outerJoins, _))

/-- Whether the side of an outer join that a condition stands on depends on the join order: it goes
to a visit, reads the right side and nothing that is always visited later, but something that inner
joins move past the outer join. -/
structure OrderDependent (tree : JoinTree) (outer : OuterJoin) (condition : Condition) : Prop where
  atVisit : ¬ tree.Waits condition
  inside : ∃ extent ∈ condition.extents, extent ∈ outer.right.visitOrder
  notLater : ∀ extent ∈ condition.extents, extent ∉ outer.later
  movable : ∃ extent ∈ condition.extents, extent ∈ outer.movable

/-- A join order with the conditions of a table: each stands where the last extent that it reads is
visited or, if it waits, in the subtrees that suit it. -/
structure Distributed (table : ConjunctTable) (order top : JoinTree) : Prop where
  outline : top.outline = order
  covers : order.Covers table
  atVisits : ∀ leaf ∈ top.visits, ∀ condition, condition ∈ leaf.conditions ↔
    condition ∈ table.conditions ∧ ¬ order.Waits condition ∧
      ExtentSet.lastRead? condition.extents order.visitOrder = some leaf.extent
  afterJoins : ∀ sub ∈ top.subtrees, ∀ condition, condition ∈ sub.posts.flatten ↔
    condition ∈ table.conditions ∧ sub.Waits condition ∧
      ∀ extent ∈ condition.extents, extent ∈ sub.visitOrder

end JoinTree

namespace Candidate

open JoinTree

variable {table : ConjunctTable} {order : JoinTree} {condition : Condition}
  {group : ConjunctGroup} {supplied : ExtentSet}

/-! ## What a distribution does -/

section Placed

variable {placement : Placement}

/-- All conditions were placed, and each group is bound at the last extent that it reads. -/
private theorem lastRead_of_complete (sorted : table.Sorted) (distinct : order.visitOrder.Nodup)
    (small : ∀ extent ∈ order.visitOrder, extent < maxExtents)
    (placed : placeGroups supplied order.visitOrder table.groups = .ok placement)
    (complete : placement.placed.length + placement.postFilters.length = table.size) :
    ∀ group ∈ table.groups, ∀ condition ∈ group.conditions, ∃ position,
      group.key.boundPosition? order.visitOrder = some position ∧
        (∀ extent ∈ condition.extents, extent ∈ order.visitOrder) ∧
        order.visitOrder[position]? =
          ExtentSet.lastRead? condition.extents order.visitOrder := by
  intro group stored condition inside
  obtain ⟨position, found⟩ := Option.isSome_iff_exists.mp
    ((placed_all_iff placed).mp complete group stored (List.ne_nil_of_mem inside))
  exact ⟨position, found, ExtentSet.boundPosition?_some (sorted.key_members stored inside).2
    small distinct found⟩

private theorem mem_placed_iff_lastRead (sorted : table.Sorted)
    (distinct : order.visitOrder.Nodup)
    (small : ∀ extent ∈ order.visitOrder, extent < maxExtents)
    (fills : order.nullSupplied = .ok supplied)
    (placed : placeGroups supplied order.visitOrder table.groups = .ok placement)
    (complete : placement.placed.length + placement.postFilters.length = table.size)
    (here : order.visitOrder[position]? = some extent) :
    (position, condition) ∈ placement.placed ↔ condition ∈ table.conditions ∧
      ¬ order.Waits condition ∧
        ExtentSet.lastRead? condition.extents order.visitOrder = some extent := by
  have lastRead := lastRead_of_complete sorted distinct small placed complete
  rw [mem_placed_iff placed]
  constructor
  · rintro ⟨group, stored, found, inside, stays⟩
    have member : condition ∈ table.conditions :=
      ConjunctTable.mem_conditions_iff.mpr ⟨group, stored, inside⟩
    obtain ⟨_, again, _, last⟩ := lastRead group stored condition inside
    cases found.symm.trans again
    refine ⟨member, ?_, last.symm.trans here⟩
    rw [← waits_iff sorted member fills, stays]
    exact Bool.false_ne_true
  · rintro ⟨member, stays, last⟩
    obtain ⟨group, stored, inside⟩ := ConjunctTable.mem_conditions_iff.mp member
    obtain ⟨place, found, _, again⟩ := lastRead group stored condition inside
    have within := (List.getElem?_eq_some_iff.mp here).1
    obtain rfl := (List.getElem?_inj within distinct).mp (here.trans (again.trans last).symm)
    refine ⟨group, stored, found, inside, ?_⟩
    rwa [← waits_iff sorted member fills, Bool.not_eq_true] at stays

private theorem postFilter_suits_iff (sorted : table.Sorted)
    (fills : order.nullSupplied = .ok supplied)
    (placed : placeGroups supplied order.visitOrder table.groups = .ok placement)
    (complete : placement.placed.length + placement.postFilters.length = table.size)
    {sub : JoinTree} (filled : ∀ extent ∈ sub.filled, extent ∈ order.filled) :
    (∃ filter ∈ placement.postFilters, filter.condition = condition ∧ filter.Suits sub) ↔
      condition ∈ table.conditions ∧ sub.Waits condition ∧
        ∀ extent ∈ condition.extents, extent ∈ sub.visitOrder := by
  constructor
  · rintro ⟨_, listed, rfl, suits⟩
    obtain ⟨group, stored, _, own, inside, _, rfl⟩ := (mem_postFilters_iff placed).mp listed
    exact ⟨ConjunctTable.mem_conditions_iff.mpr ⟨group, stored, inside⟩,
      ((waiting_faithful sorted stored inside).suits_iff sub).mp suits⟩
  · rintro ⟨member, suits⟩
    obtain ⟨group, stored, inside⟩ := ConjunctTable.mem_conditions_iff.mp member
    have whole : order.Waits condition := by
      obtain ⟨extent, tests, fill⟩ := suits.1
      exact ⟨extent, tests, filled extent fill⟩
    have listed : waiting group.key condition ∈ placement.postFilters :=
      (mem_postFilters_iff placed).mpr ⟨group, stored,
        (placed_all_iff placed).mp complete group stored (List.ne_nil_of_mem inside), condition,
        inside, (waits_iff sorted member fills).mpr whole, rfl⟩
    exact ⟨_, listed, rfl, ((waiting_faithful sorted stored inside).suits_iff sub).mpr suits⟩

end Placed

private theorem visits_addConditions (bare : ∀ leaf ∈ order.visits, leaf.conditions = [])
    (given : Nat → List Condition)
    (member : leaf ∈ (order.mapVisits fun position leaf =>
      leaf.addConditions (given position)).visits) :
    ∃ position, order.visitOrder[position]? = some leaf.extent ∧
      leaf.conditions = given position := by
  rw [visits_mapVisits, List.mem_mapIdx] at member
  obtain ⟨position, inside, rfl⟩ := member
  refine ⟨position, ?_, ?_⟩
  · rw [visitOrder_eq_map, List.getElem?_map, List.getElem?_eq_getElem inside]
    rfl
  · rw [Visit.addConditions, bare _ (List.getElem_mem inside), List.nil_append]

/-- What a successful distribution over a join order does. -/
theorem distributed_of_ok {next : Candidate} (sorted : table.Sorted)
    (ordered : JoinOrder tree order) (distinctTree : tree.visitOrder.Nodup)
    (smallTree : ∀ extent ∈ tree.visitOrder, extent < maxExtents)
    (ran : (ofTree order).distributeConditions table = (next, .ok ())) :
    Distributed table order next.top := by
  have distinct := ordered.distinct distinctTree
  have small := small_of_rearranged ordered.rearranged smallTree
  obtain ⟨supplied, placement, fills, placed, attached, _, complete⟩ := distributeConditions_ok ran
  dsimp only [ofTree] at fills placed attached
  have paired := order.mapVisits_pointwise fun position leaf =>
    leaf.addConditions (placement.conditionsAt position)
  obtain ⟨sameVisits, sameOutline, _⟩ := attachPostFilters_ok attached
  have visited : (order.mapVisits fun position leaf =>
      leaf.addConditions (placement.conditionsAt position)).visitOrder = order.visitOrder := by
    refine paired.visitOrder ?_
    rintro before _ ⟨_, rfl⟩
    rfl
  have outline : next.top.outline = order := by
    rw [sameOutline, paired.outline]
    · exact ordered.outline_self
    · rintro before _ ⟨_, rfl⟩
      rfl
  refine ⟨outline, ?_, ?_, ?_⟩
  · intro condition member
    obtain ⟨group, stored, inside⟩ := ConjunctTable.mem_conditions_iff.mp member
    obtain ⟨_, _, covered, _⟩ :=
      lastRead_of_complete sorted distinct small placed complete group stored condition inside
    exact covered
  · intro leaf member condition
    have bare : ∀ leaf ∈ order.visits, leaf.conditions = [] := fun leaf member => by
      rw [← (ordered.fresh_visit member).1]
      rfl
    rw [sameVisits] at member
    obtain ⟨position, here, conditions⟩ := visits_addConditions bare _ member
    rw [conditions, mem_conditionsAt_iff]
    exact mem_placed_iff_lastRead sorted distinct small fills placed complete here
  · intro sub below condition
    have noPosts : (order.mapVisits fun position leaf =>
        leaf.addConditions (placement.conditionsAt position)).posts.flatten = [] := by
      rw [paired.posts]
      exact ordered.posts_empty
    have settled := attachPostFilters_settles (visited.symm ▸ small) (visited.symm ▸ distinct)
      (postFilters_read sorted fills placed) (settled_nil noPosts) attached sub below condition
    have filled : ∀ extent ∈ sub.filled, extent ∈ order.filled := by
      intro extent fill
      rw [← outline, ← next.top.rearranged_outline.filled]
      exact filled_of_subtree below extent fill
    rw [settled, ← postFilter_suits_iff sorted fills placed complete filled]
    simp only [List.append_nil, List.mem_reverse]

/-- Conditions that read nothing but what is visited can be distributed. -/
theorem distribute_succeeds (sorted : table.Sorted) (ordered : JoinOrder tree order)
    (smallTree : ∀ extent ∈ tree.visitOrder, extent < maxExtents) (coversTree : tree.Covers table) :
    ∃ next, (ofTree order).distributeConditions table = (next, .ok ()) := by
  have small := small_of_rearranged ordered.rearranged smallTree
  have covers := coversTree.congr ordered.rearranged
  have settled : SucceedsIff (order.Covers table) _ ((ofTree order).distributeConditions table).2 :=
    distributeConditions_succeedsIff sorted rfl small
  obtain ⟨⟨⟩, outcome⟩ := settled.exists_iff.mpr covers
  exact ⟨_, Prod.ext rfl outcome⟩

end Candidate

namespace JoinTree

variable {table : ConjunctTable} {tree order top : JoinTree} {outer : OuterJoin}
  {condition : Condition}

/-! ## Inside an outer join -/

/-- The last extent read is one of the right side exactly if that side is read and nothing read is
visited after it. -/
theorem Around.lastRead_iff (around : Around outer visited before rights after)
    (distinct : visited.Nodup) (reads : List Nat) :
    (∃ extent ∈ outer.right.visitOrder, ExtentSet.lastRead? reads visited = some extent) ↔
      (∃ extent ∈ reads, extent ∈ outer.right.visitOrder) ∧ ∀ extent ∈ reads, extent ∉ after := by
  have inRight : ∀ extent, extent ∈ outer.right.visitOrder ↔ extent ∈ rights := fun _ =>
    around.right.mem_iff.symm
  obtain rfl := around.split
  obtain ⟨_, distinctTail, apartBefore⟩ := List.nodup_append.mp distinct
  obtain ⟨_, _, apartAfter⟩ := List.nodup_append.mp distinctTail
  simp only [inRight]
  by_cases readAfter : ∃ extent ∈ reads, extent ∈ after
  · obtain ⟨last, atEnd, found⟩ := ExtentSet.lastRead?_of_read (before ++ rights) readAfter
    rw [List.append_assoc] at found
    rw [found]
    refine iff_of_false ?_ ?_
    · rintro ⟨extent, inside, same⟩
      exact apartAfter extent inside last atEnd (Option.some.inj same).symm
    · rintro ⟨_, never⟩
      obtain ⟨extent, read, later⟩ := readAfter
      exact never extent read later
  · have unread : ∀ extent ∈ reads, extent ∉ after := fun extent read later =>
      readAfter ⟨extent, read, later⟩
    rw [← List.append_assoc, ExtentSet.lastRead?_of_unread unread
      (List.append_ne_nil_of_left_ne_nil around.notFirst rights), and_iff_left unread]
    by_cases readRight : ∃ extent ∈ reads, extent ∈ rights
    · refine iff_of_true ?_ readRight
      exact ExtentSet.lastRead?_of_read before readRight
    · refine iff_of_false ?_ readRight
      rintro ⟨extent, inside, found⟩
      rw [ExtentSet.lastRead?_of_unread (fun extent read here => readRight ⟨extent, read, here⟩)
        around.notFirst] at found
      exact apartBefore extent (ExtentSet.mem_of_lastRead? found) extent
        (List.mem_append_left _ inside) rfl

theorem Distributed.rearranged (distributed : Distributed table order top) :
    Rearranged top order := by
  have outlined := top.rearranged_outline
  rwa [distributed.outline] at outlined

private theorem Distributed.carries_of_waits (distributed : Distributed table order top)
    (below : sub ∈ top.subtrees) (waits : order.Waits condition) :
    sub.Carries condition ↔ condition ∈ table.conditions ∧ sub.Waits condition ∧
      ∀ extent ∈ condition.extents, extent ∈ sub.visitOrder := by
  rw [← distributed.afterJoins sub below]
  refine or_iff_right ?_
  rintro ⟨leaf, member, holds⟩
  have atVisit := distributed.atVisits leaf (visits_of_subtree below leaf member) condition
  exact (atVisit.mp holds).2.1 waits

private theorem Distributed.carries_of_stays (distributed : Distributed table order top)
    (below : sub ∈ top.subtrees) (stays : ¬ order.Waits condition) :
    sub.Carries condition ↔ condition ∈ table.conditions ∧ ∃ extent ∈ sub.visitOrder,
      ExtentSet.lastRead? condition.extents order.visitOrder = some extent := by
  have atVisits := fun leaf (member : leaf ∈ sub.visits) =>
    distributed.atVisits leaf (visits_of_subtree below leaf member) condition
  have noPost : condition ∉ sub.posts.flatten := by
    rw [distributed.afterJoins sub below]
    rintro ⟨_, waits, _⟩
    exact stays ((Waits.congr distributed.rearranged condition).mp (waits.of_subtree below))
  rw [Carries, or_iff_left noPost, visitOrder_eq_map]
  constructor
  · rintro ⟨leaf, member, holds⟩
    obtain ⟨stored, _, last⟩ := (atVisits leaf member).mp holds
    exact ⟨stored, leaf.extent, List.mem_map_of_mem member, last⟩
  · rintro ⟨stored, _, listed, last⟩
    obtain ⟨leaf, member, rfl⟩ := List.mem_map.mp listed
    exact ⟨leaf, member, (atVisits leaf member).mpr ⟨stored, stays, last⟩⟩

/-- A condition that waits stands on the same side of an outer join in all join orders. -/
private theorem carriesInside_of_waits {order' top' : JoinTree}
    (first : Distributed table order top) (second : Distributed table order' top')
    (rearranged : Rearranged order order') (waits : order.Waits condition)
    (inside : top.CarriesInside outer condition) : top'.CarriesInside outer condition := by
  obtain ⟨found, member, lefts, rights, carries⟩ := inside
  have stands := mem_outerJoins.mp member
  obtain ⟨other, standsToo, same⟩ := stands.counterpart
    (first.rearranged.trans (rearranged.trans second.rearranged.symm))
  obtain ⟨stored, sideWaits, reads⟩ :=
    (first.carries_of_waits stands.right_mem_subtrees waits).mp carries
  refine ⟨other, mem_outerJoins.mpr standsToo, same.lefts.symm.visitOrder_perm.trans lefts,
    same.rights.symm.visitOrder_perm.trans rights, ?_⟩
  rw [second.carries_of_waits standsToo.right_mem_subtrees ((Waits.congr rearranged _).mp waits)]
  exact ⟨stored, (Waits.congr same.rights _).mp sideWaits, fun extent read =>
    same.rights.visitOrder_perm.mem_iff.mp (reads extent read)⟩

/-- A condition that goes to a visit stands inside an outer join if the last extent that it reads is
visited there. -/
private theorem carriesInside_of_stays (distributed : Distributed table order top)
    (rearranged : Rearranged tree order) (stands : HasOuterJoin tree outer)
    (stored : condition ∈ table.conditions) (stays : ¬ order.Waits condition) :
    top.CarriesInside outer condition ↔ ∃ extent ∈ outer.right.visitOrder,
      ExtentSet.lastRead? condition.extents order.visitOrder = some extent := by
  constructor
  · rintro ⟨found, member, _, rights, carries⟩
    obtain ⟨_, extent, inside, last⟩ := (distributed.carries_of_stays
      (mem_outerJoins.mp member).right_mem_subtrees stays).mp carries
    exact ⟨extent, rights.mem_iff.mp inside, last⟩
  · rintro ⟨extent, inside, last⟩
    obtain ⟨found, standsToo, same⟩ := stands.counterpart
      (rearranged.trans distributed.rearranged.symm)
    refine ⟨found, mem_outerJoins.mpr standsToo, same.lefts.symm.visitOrder_perm,
      same.rights.symm.visitOrder_perm, ?_⟩
    rw [distributed.carries_of_stays standsToo.right_mem_subtrees stays]
    exact ⟨stored, extent, same.rights.visitOrder_perm.mem_iff.mp inside, last⟩

/-- Unless it depends on the join order, a condition that goes to a visit stands inside an outer
join if it reads the right side and nothing that is always visited later. -/
private theorem Around.lastRead_iff_of_independent (distinct : visited.Nodup)
    (around : Around outer visited before rights after) (stays : ¬ tree.Waits condition)
    (independent : ¬ tree.OrderDependent outer condition) :
    (∃ extent ∈ outer.right.visitOrder,
      ExtentSet.lastRead? condition.extents visited = some extent) ↔
        (∃ extent ∈ condition.extents, extent ∈ outer.right.visitOrder) ∧
          ∀ extent ∈ condition.extents, extent ∉ outer.later := by
  rw [around.lastRead_iff distinct]
  refine and_congr_right fun inside => ⟨fun never extent read later =>
    never extent read (around.later extent later), fun never extent read behind => ?_⟩
  rcases around.others extent behind with later | movable
  · exact never extent read later
  · exact independent ⟨stays, inside, never, extent, read, movable⟩

private theorem fixed_of_independent {first second top' : JoinTree}
    (distinct : tree.visitOrder.Nodup) (firstOrder : JoinOrder tree first)
    (secondOrder : JoinOrder tree second) (distributed : Distributed table first top)
    (distributed' : Distributed table second top') (stands : HasOuterJoin tree outer)
    (stored : condition ∈ table.conditions)
    (independent : ¬ tree.OrderDependent outer condition) :
    top.CarriesInside outer condition ↔ top'.CarriesInside outer condition := by
  have between := firstOrder.rearranged.symm.trans secondOrder.rearranged
  have waitsFirst := Waits.congr firstOrder.rearranged condition
  have waitsSecond := Waits.congr secondOrder.rearranged condition
  by_cases waits : tree.Waits condition
  · exact ⟨carriesInside_of_waits distributed distributed' between (waitsFirst.mp waits),
      carriesInside_of_waits distributed' distributed between.symm (waitsSecond.mp waits)⟩
  · obtain ⟨_, _, _, around⟩ := stands.around firstOrder
    obtain ⟨_, _, _, around'⟩ := stands.around secondOrder
    calc top.CarriesInside outer condition
        ↔ _ := carriesInside_of_stays distributed firstOrder.rearranged stands stored
          (mt waitsFirst.mpr waits)
      _ ↔ _ := around.lastRead_iff_of_independent (firstOrder.distinct distinct) waits independent
      _ ↔ _ := (around'.lastRead_iff_of_independent (secondOrder.distinct distinct) waits
          independent).symm
      _ ↔ top'.CarriesInside outer condition := (carriesInside_of_stays distributed'
          secondOrder.rearranged stands stored (mt waitsSecond.mpr waits)).symm

/-- One join order has everything that may move visited before the outer join, another one after
it. -/
private theorem moved_of_dependent (sorted : table.Sorted) (distinct : tree.visitOrder.Nodup)
    (small : ∀ extent ∈ tree.visitOrder, extent < maxExtents) (covers : tree.Covers table)
    (stands : HasOuterJoin tree outer) (stored : condition ∈ table.conditions)
    (dependent : tree.OrderDependent outer condition) :
    ∃ first second placed placed', JoinOrder tree first ∧ JoinOrder tree second ∧
      (Candidate.ofTree first).distributeConditions table = (placed, .ok ()) ∧
      (Candidate.ofTree second).distributeConditions table = (placed', .ok ()) ∧
      placed.top.CarriesInside outer condition ∧ ¬ placed'.top.CarriesInside outer condition := by
  obtain ⟨first, _, _, after, firstOrder, around, ahead⟩ := stands.moved_ahead
  obtain ⟨second, _, _, after', secondOrder, around', behind⟩ := stands.moved_behind
  obtain ⟨placed, ran⟩ := Candidate.distribute_succeeds sorted firstOrder small covers
  obtain ⟨placed', ran'⟩ := Candidate.distribute_succeeds sorted secondOrder small covers
  refine ⟨first, second, placed, placed', firstOrder, secondOrder, ran, ran', ?_, ?_⟩
  · have distributed := Candidate.distributed_of_ok sorted firstOrder distinct small ran
    rw [carriesInside_of_stays distributed firstOrder.rearranged stands stored
        (mt (Waits.congr firstOrder.rearranged _).mpr dependent.atVisit),
      around.lastRead_iff (firstOrder.distinct distinct)]
    exact ⟨dependent.inside, fun extent read behind =>
      dependent.notLater extent read (ahead extent behind)⟩
  · have distributed := Candidate.distributed_of_ok sorted secondOrder distinct small ran'
    rw [carriesInside_of_stays distributed secondOrder.rearranged stands stored
        (mt (Waits.congr secondOrder.rearranged _).mpr dependent.atVisit),
      around'.lastRead_iff (secondOrder.distinct distinct)]
    rintro ⟨_, never⟩
    obtain ⟨extent, read, movable⟩ := dependent.movable
    exact never extent read (behind extent movable)

/-- Wherever the conditions of a table can be distributed, a condition stands on the same side of an
outer join in all join orders exactly if it does not depend on the join order. -/
theorem placement_fixed_iff {orders : List JoinTree} (listed : tree.joinOrders = .ok orders)
    (distinct : tree.visitOrder.Nodup) (small : ∀ extent ∈ tree.visitOrder, extent < maxExtents)
    (filled : table.Filled) (member : outer ∈ tree.outerJoins)
    (stored : condition ∈ table.conditions) :
    (∀ first ∈ orders, ∀ second ∈ orders, ∀ placed placed',
      (Candidate.ofTree first).distributeConditions table = (placed, .ok ()) →
      (Candidate.ofTree second).distributeConditions table = (placed', .ok ()) →
        (placed.top.CarriesInside outer condition ↔ placed'.top.CarriesInside outer condition)) ↔
      ¬ (tree.OrderDependent outer condition ∧ tree.Covers table) := by
  have stands := mem_outerJoins.mp member
  constructor
  · rintro same ⟨dependent, covers⟩
    obtain ⟨first, second, placed, placed', firstOrder, secondOrder, ran, ran', inside, outside⟩ :=
      moved_of_dependent filled.sorted distinct small covers stands stored dependent
    exact outside ((same first ((mem_joinOrders listed).mpr firstOrder) second
      ((mem_joinOrders listed).mpr secondOrder) placed placed' ran ran').mp inside)
  · intro independent first firstMember second secondMember placed placed' ran ran'
    have firstOrder := (mem_joinOrders listed).mp firstMember
    have secondOrder := (mem_joinOrders listed).mp secondMember
    have distributed :=
      Candidate.distributed_of_ok filled.sorted firstOrder distinct small ran
    have distributed' :=
      Candidate.distributed_of_ok filled.sorted secondOrder distinct small ran'
    exact fixed_of_independent distinct firstOrder secondOrder distributed distributed' stands
      stored fun dependent =>
        independent ⟨dependent, distributed.covers.congr firstOrder.rearranged.symm⟩

/-- Persons, some with pets, together with cities. -/
def petsAndCities : JoinTree :=
  .join .inner (.join .leftOuter (.visit (.unplanned 0 "Person")) (.visit (.unplanned 1 "Pet")) [])
    (.visit (.unplanned 2 "City")) []

/-- Persons with their pets, as a part of that tree. -/
def personsAndPets : OuterJoin :=
  ⟨.visit (.unplanned 0 "Person"), .visit (.unplanned 1 "Pet"), [], [2]⟩

/-- Pets of an age, and pets that live in a city. -/
def petAge : Condition := .compare .equal (.path 1 ["age"]) (.parameter 0)

def petCity : Condition := .compare .equal (.path 1 ["city"]) (.path 2 ["name"])

def petConditions : ConjunctTable := (ConjunctTable.empty.addAll [petAge, petCity]).1

theorem placement_of_pet_age_fixed :
    ∃ orders, petsAndCities.joinOrders = .ok orders ∧
      ∀ first ∈ orders, ∀ second ∈ orders, ∀ placed placed',
        (Candidate.ofTree first).distributeConditions petConditions = (placed, .ok ()) →
        (Candidate.ofTree second).distributeConditions petConditions = (placed', .ok ()) →
          (placed.top.CarriesInside personsAndPets petAge ↔
            placed'.top.CarriesInside personsAndPets petAge) := by
  have listed : ∃ orders, petsAndCities.joinOrders = .ok orders := ⟨_, rfl⟩
  obtain ⟨orders, listed⟩ := listed
  have filled : petConditions.Filled := ConjunctTable.Filled.empty.addAll _
  have fixed := placement_fixed_iff listed (by decide) (by decide) filled
    (by decide : personsAndPets ∈ petsAndCities.outerJoins)
    (by decide : petAge ∈ petConditions.conditions)
  refine ⟨orders, listed, fixed.mpr ?_⟩
  rintro ⟨dependent, _⟩
  obtain ⟨extent, read, movable⟩ := dependent.movable
  revert extent
  decide

/-- The pets of a city are looked for inside the outer join if the cities are visited first. -/
theorem placement_of_pet_city_moves :
    ∃ orders, petsAndCities.joinOrders = .ok orders ∧
      ∃ first ∈ orders, ∃ second ∈ orders, ∃ placed placed',
        (Candidate.ofTree first).distributeConditions petConditions = (placed, .ok ()) ∧
        (Candidate.ofTree second).distributeConditions petConditions = (placed', .ok ()) ∧
          ¬ placed.top.CarriesInside personsAndPets petCity ∧
            placed'.top.CarriesInside personsAndPets petCity :=
  ⟨_, rfl, _, List.mem_cons_self, _, List.mem_cons_of_mem _ List.mem_cons_self, _, _, rfl, rfl,
    by decide, by decide⟩

end JoinTree

end ExtentPlanner
