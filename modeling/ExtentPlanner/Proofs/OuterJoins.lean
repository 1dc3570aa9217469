import ExtentPlanner.Proofs.ExtentMembers
import ExtentPlanner.Proofs.JoinOrderTrees

/-! Outer joins of a tree and of its join orders. A join order moves a left outer join only as a
whole: the extents of its right side stay together, and what is visited after them are the extents
of enclosing outer joins, together with those that inner joins have put behind. -/
namespace ExtentPlanner

/-- A left outer join of a tree. -/
structure OuterJoin where
  left : JoinTree
  right : JoinTree
  /-- The extents that every join order visits after this join. -/
  later : List Nat
  /-- The extents that some join orders visit before this join and some after it. -/
  movable : List Nat
  deriving DecidableEq

namespace OuterJoin

/-- The outer join as seen from an inner join with a side that reads these extents. -/
def movingPast (extents : List Nat) (outer : OuterJoin) : OuterJoin :=
  { outer with movable := extents ++ outer.movable }

/-- The outer join as seen from a left outer join whose right side reads these extents. -/
def followedBy (extents : List Nat) (outer : OuterJoin) : OuterJoin :=
  { outer with later := extents ++ outer.later }

end OuterJoin

namespace JoinTree

/-- The left outer joins of a tree. -/
def outerJoins : JoinTree → List OuterJoin
  | visit _ => []
  | join .inner left right _ =>
    left.outerJoins.map (·.movingPast right.visitOrder) ++
      right.outerJoins.map (·.movingPast left.visitOrder)
  | join .leftOuter left right _ =>
    ⟨left, right, [], []⟩ ::
      (left.outerJoins.map (·.followedBy right.visitOrder) ++ right.outerJoins)
  | sort _ input | aggregate _ _ input => input.outerJoins

/-- Where an outer join of a tree may stand. -/
inductive HasOuterJoin : JoinTree → OuterJoin → Prop where
  | here : HasOuterJoin (join .leftOuter left right post) ⟨left, right, [], []⟩
  | outerLeft (below : HasOuterJoin left outer) :
    HasOuterJoin (join .leftOuter left right post) (outer.followedBy right.visitOrder)
  | outerRight (below : HasOuterJoin right outer) :
    HasOuterJoin (join .leftOuter left right post) outer
  | innerLeft (below : HasOuterJoin left outer) :
    HasOuterJoin (join .inner left right post) (outer.movingPast right.visitOrder)
  | innerRight (below : HasOuterJoin right outer) :
    HasOuterJoin (join .inner left right post) (outer.movingPast left.visitOrder)
  | sort (below : HasOuterJoin input outer) : HasOuterJoin (sort spec input) outer
  | aggregate (below : HasOuterJoin input outer) :
    HasOuterJoin (aggregate grouping presorted input) outer

theorem mem_outerJoins {tree : JoinTree} : outer ∈ tree.outerJoins ↔ HasOuterJoin tree outer := by
  constructor
  · intro member
    induction tree generalizing outer with
    | visit leaf => cases member
    | join kind left right post lefts rights =>
      cases kind with
      | inner =>
        rcases List.mem_append.mp member with onLeft | onRight
        · obtain ⟨own, inside, rfl⟩ := List.mem_map.mp onLeft
          exact .innerLeft (lefts inside)
        · obtain ⟨own, inside, rfl⟩ := List.mem_map.mp onRight
          exact .innerRight (rights inside)
      | leftOuter =>
        rcases List.mem_cons.mp member with rfl | below
        · exact .here
        · rcases List.mem_append.mp below with onLeft | onRight
          · obtain ⟨own, inside, rfl⟩ := List.mem_map.mp onLeft
            exact .outerLeft (lefts inside)
          · exact .outerRight (rights onRight)
    | sort spec input inputs => exact .sort (inputs member)
    | aggregate grouping presorted input inputs => exact .aggregate (inputs member)
  · intro stands
    induction stands with
    | here => exact List.mem_cons_self
    | outerLeft _ ih =>
      exact List.mem_cons_of_mem _ (List.mem_append_left _ (List.mem_map_of_mem ih))
    | outerRight _ ih => exact List.mem_cons_of_mem _ (List.mem_append_right _ ih)
    | innerLeft _ ih => exact List.mem_append_left _ (List.mem_map_of_mem ih)
    | innerRight _ ih => exact List.mem_append_right _ (List.mem_map_of_mem ih)
    | sort _ ih => exact ih
    | aggregate _ ih => exact ih

/-- The extents that some left outer join may fill with nulls. -/
def filled (tree : JoinTree) : List Nat := tree.outerJoins.flatMap (·.right.visitOrder)

/-- The tree itself and all below it. -/
def subtrees : JoinTree → List JoinTree
  | visit leaf => [visit leaf]
  | join kind left right post => join kind left right post :: (left.subtrees ++ right.subtrees)
  | sort spec input => sort spec input :: input.subtrees
  | aggregate grouping presorted input => aggregate grouping presorted input :: input.subtrees

@[simp] theorem filled_visit (leaf : Visit) : (visit leaf).filled = [] := rfl

@[simp] theorem filled_inner (left right : JoinTree) (post : List Condition) :
    (join .inner left right post).filled = left.filled ++ right.filled := by
  simp [filled, outerJoins, OuterJoin.movingPast, List.flatMap_map]

@[simp] theorem filled_leftOuter (left right : JoinTree) (post : List Condition) :
    (join .leftOuter left right post).filled =
      right.visitOrder ++ (left.filled ++ right.filled) := by
  simp [filled, outerJoins, OuterJoin.followedBy, List.flatMap_map]

@[simp] theorem filled_sort (spec : SortSpec) (input : JoinTree) :
    (sort spec input).filled = input.filled := rfl

@[simp] theorem filled_aggregate (grouping : Grouping) (presorted : Bool) (input : JoinTree) :
    (aggregate grouping presorted input).filled = input.filled := rfl

/-! ## Subtrees -/

theorem self_mem_subtrees (tree : JoinTree) : tree ∈ tree.subtrees := by
  cases tree <;> exact List.mem_cons_self

theorem visits_of_subtree {tree : JoinTree} (below : sub ∈ tree.subtrees) :
    ∀ leaf ∈ sub.visits, leaf ∈ tree.visits := by
  induction tree with
  | visit leaf =>
    rw [List.mem_singleton.mp below]
    exact fun _ => id
  | join kind left right post lefts rights =>
    intro leaf member
    rcases List.mem_cons.mp below with rfl | inside
    · exact member
    · rw [visits, List.mem_append]
      exact (List.mem_append.mp inside).imp (lefts · leaf member) (rights · leaf member)
  | sort spec input inputs | aggregate _ _ input inputs =>
    intro leaf member
    rcases List.mem_cons.mp below with rfl | inside
    · exact member
    · exact inputs inside leaf member

theorem visitOrder_of_subtree {tree : JoinTree} (below : sub ∈ tree.subtrees) :
    ∀ extent ∈ sub.visitOrder, extent ∈ tree.visitOrder := by
  intro extent member
  rw [visitOrder_eq_map] at member ⊢
  obtain ⟨leaf, inside, rfl⟩ := List.mem_map.mp member
  exact List.mem_map_of_mem (visits_of_subtree below leaf inside)

theorem filled_of_subtree {tree : JoinTree} (below : sub ∈ tree.subtrees) :
    ∀ extent ∈ sub.filled, extent ∈ tree.filled := by
  induction tree with
  | visit leaf =>
    rw [List.mem_singleton.mp below]
    exact fun _ => id
  | join kind left right post lefts rights =>
    intro extent member
    rcases List.mem_cons.mp below with rfl | inside
    · exact member
    · have either : extent ∈ left.filled ++ right.filled := List.mem_append.mpr
        ((List.mem_append.mp inside).imp (lefts · extent member) (rights · extent member))
      cases kind with
      | inner => rwa [filled_inner]
      | leftOuter =>
        rw [filled_leftOuter]
        exact List.mem_append_right _ either
  | sort spec input inputs | aggregate _ _ input inputs =>
    intro extent member
    rcases List.mem_cons.mp below with rfl | inside
    · exact member
    · exact inputs inside extent member

theorem HasOuterJoin.right_mem_subtrees (stands : HasOuterJoin tree outer) :
    outer.right ∈ tree.subtrees := by
  induction stands with
  | here =>
    exact List.mem_cons_of_mem _ (List.mem_append_right _ (self_mem_subtrees _))
  | outerLeft _ ih | innerLeft _ ih => exact List.mem_cons_of_mem _ (List.mem_append_left _ ih)
  | outerRight _ ih | innerRight _ ih => exact List.mem_cons_of_mem _ (List.mem_append_right _ ih)
  | sort _ ih | aggregate _ ih => exact List.mem_cons_of_mem _ ih

theorem mem_visitOrder_of_filled {tree : JoinTree} (filled : extent ∈ tree.filled) :
    extent ∈ tree.visitOrder := by
  obtain ⟨outer, member, inside⟩ := List.mem_flatMap.mp filled
  exact visitOrder_of_subtree (mem_outerJoins.mp member).right_mem_subtrees extent inside

/-! ## The set of filled extents -/

/-- The set of extents that the planner takes to be filled has just those as members. -/
theorem nullSupplied_members {tree : JoinTree} (ran : tree.nullSupplied = .ok supplied) :
    ∀ extent, supplied.includes extent = true ↔ extent ∈ tree.filled := by
  induction tree generalizing supplied with
  | visit leaf =>
    cases ran
    simp
  | join kind left right post lefts rights =>
    obtain ⟨onLeft, ranLeft, ran⟩ := bind_succeeds.mp ran
    obtain ⟨onRight, ranRight, ran⟩ := bind_succeeds.mp ran
    intro extent
    cases kind with
    | inner =>
      cases ran
      simp [lefts ranLeft, rights ranRight]
    | leftOuter =>
      obtain ⟨whole, ranWhole, ran⟩ := bind_succeeds.mp ran
      cases ran
      have members := (ExtentSet.ofList_members ranWhole).2
      simp only [ExtentSet.includes_union, Bool.or_eq_true, lefts ranLeft, rights ranRight,
        members, filled_leftOuter, List.mem_append]
      exact or_comm
  | sort spec input inputs => exact inputs ran
  | aggregate grouping presorted input inputs => exact inputs ran

private theorem nullSupplied_of_filled {tree : JoinTree}
    (small : ∀ extent ∈ tree.filled, extent < maxExtents) :
    ∃ supplied, tree.nullSupplied = .ok supplied := by
  induction tree with
  | visit leaf => exact ⟨_, rfl⟩
  | join kind left right post lefts rights =>
    cases kind with
    | inner =>
      rw [filled_inner] at small
      obtain ⟨smallLeft, smallRight⟩ := List.forall_mem_append.mp small
      obtain ⟨onLeft, ranLeft⟩ := lefts smallLeft
      obtain ⟨onRight, ranRight⟩ := rights smallRight
      exact ⟨_, bind_succeeds.mpr ⟨_, ranLeft, bind_succeeds.mpr ⟨_, ranRight, rfl⟩⟩⟩
    | leftOuter =>
      rw [filled_leftOuter] at small
      obtain ⟨smallWhole, smallSides⟩ := List.forall_mem_append.mp small
      obtain ⟨smallLeft, smallRight⟩ := List.forall_mem_append.mp smallSides
      obtain ⟨onLeft, ranLeft⟩ := lefts smallLeft
      obtain ⟨onRight, ranRight⟩ := rights smallRight
      obtain ⟨whole, ranWhole⟩ := ExtentSet.ofList_ok smallWhole
      exact ⟨_, bind_succeeds.mpr ⟨_, ranLeft, bind_succeeds.mpr ⟨_, ranRight,
        bind_succeeds.mpr ⟨_, ranWhole, rfl⟩⟩⟩⟩
  | sort spec input inputs => exact inputs small
  | aggregate grouping presorted input inputs => exact inputs small

/-- The planner takes the filled extents to be filled, if they make a set. -/
theorem nullSupplied_iff {tree : JoinTree} : tree.nullSupplied = .ok supplied ↔
    ∀ extent, supplied.includes extent = true ↔ extent ∈ tree.filled := by
  constructor
  · exact nullSupplied_members
  · intro members
    obtain ⟨found, ran⟩ := nullSupplied_of_filled fun extent member =>
      ExtentSet.lt_of_includes ((members extent).mpr member)
    rw [ran, Except.ok.injEq]
    exact ExtentSet.eq_of_includes fun extent =>
      Bool.eq_iff_iff.mpr ((nullSupplied_members ran extent).trans (members extent).symm)

theorem nullSupplied_ok {tree : JoinTree}
    (small : ∀ extent ∈ tree.visitOrder, extent < maxExtents) :
    ∃ supplied, tree.nullSupplied = .ok supplied :=
  nullSupplied_of_filled fun extent member => small extent (mem_visitOrder_of_filled member)

/-! ## Rearranged trees -/

/-- Two trees that visit the same extents and have the same joins, except that inner joins may have
exchanged their sides. -/
inductive Rearranged : JoinTree → JoinTree → Prop where
  | visit (same : first.extent = second.extent) : Rearranged (visit first) (visit second)
  | straight (lefts : Rearranged left left') (rights : Rearranged right right') :
    Rearranged (join kind left right post) (join kind left' right' post')
  | exchanged (lefts : Rearranged left left') (rights : Rearranged right right') :
    Rearranged (join .inner left right post) (join .inner right' left' post')
  | sort (inputs : Rearranged input input') : Rearranged (sort spec input) (sort spec input')
  | aggregate (inputs : Rearranged input input') :
    Rearranged (aggregate grouping presorted input) (aggregate grouping presorted' input')

theorem Rearranged.symm (rearranged : Rearranged tree other) : Rearranged other tree := by
  induction rearranged with
  | visit same => exact .visit same.symm
  | straight _ _ lefts rights => exact .straight lefts rights
  | exchanged _ _ lefts rights => exact .exchanged rights lefts
  | sort _ inputs => exact .sort inputs
  | aggregate _ inputs => exact .aggregate inputs

theorem Rearranged.trans (first : Rearranged tree middle) (second : Rearranged middle other) :
    Rearranged tree other := by
  induction first generalizing other with
  | visit same =>
    cases second with
    | visit again => exact .visit (same.trans again)
  | straight _ _ lefts rights =>
    cases second with
    | straight lefts' rights' => exact .straight (lefts lefts') (rights rights')
    | exchanged lefts' rights' => exact .exchanged (lefts lefts') (rights rights')
  | exchanged _ _ lefts rights =>
    cases second with
    | straight lefts' rights' => exact .exchanged (lefts rights') (rights lefts')
    | exchanged lefts' rights' => exact .straight (lefts rights') (rights lefts')
  | sort _ inputs =>
    cases second with
    | sort inputs' => exact .sort (inputs inputs')
  | aggregate _ inputs =>
    cases second with
    | aggregate inputs' => exact .aggregate (inputs inputs')

theorem rearranged_outline (tree : JoinTree) : Rearranged tree tree.outline := by
  induction tree with
  | visit leaf => exact .visit rfl
  | join kind left right post lefts rights => exact .straight lefts rights
  | sort spec input inputs => exact .sort inputs
  | aggregate grouping presorted input inputs => exact .aggregate inputs

theorem rearranged_of_outline {tree other : JoinTree} (same : other.outline = tree.outline) :
    Rearranged tree other := by
  have outlined := other.rearranged_outline
  rw [same] at outlined
  exact tree.rearranged_outline.trans outlined.symm

theorem rearranged_mapVisits (tree : JoinTree) (change : Nat → Visit → Visit)
    (same : ∀ position leaf, (change position leaf).extent = leaf.extent) :
    Rearranged tree (tree.mapVisits change) := by
  have general : ∀ before, Rearranged tree (tree.mapVisitsFrom change before) := by
    induction tree with
    | visit leaf => exact fun before => .visit (same before leaf).symm
    | join kind left right post lefts rights => exact fun before => .straight (lefts _) (rights _)
    | sort spec input inputs => exact fun before => .sort (inputs before)
    | aggregate grouping presorted input inputs => exact fun before => .aggregate (inputs before)
  exact general 0

theorem JoinOrder.rearranged (ordered : JoinOrder tree order) : Rearranged tree order := by
  induction ordered with
  | visit leaf => exact .visit rfl
  | straight _ _ lefts rights => exact .straight lefts rights
  | exchanged _ _ lefts rights => exact .exchanged lefts rights
  | sort _ inputs => exact .sort inputs
  | aggregate _ inputs => exact .aggregate inputs

theorem Rearranged.visitOrder_perm (rearranged : Rearranged tree other) :
    tree.visitOrder.Perm other.visitOrder := by
  induction rearranged with
  | visit same => rw [visitOrder, visitOrder, same]
  | straight _ _ lefts rights => exact lefts.append rights
  | exchanged _ _ lefts rights => exact (lefts.append rights).trans List.perm_append_comm
  | sort _ inputs => exact inputs
  | aggregate _ inputs => exact inputs

theorem Rearranged.filled (rearranged : Rearranged tree other) :
    ∀ extent, extent ∈ tree.filled ↔ extent ∈ other.filled := by
  induction rearranged with
  | visit same => simp
  | @straight _ _ _ _ kind _ _ _ rights lefts' rights' =>
    intro extent
    cases kind with
    | inner => simp [lefts', rights']
    | leftOuter => simp [lefts', rights', rights.visitOrder_perm.mem_iff]
  | exchanged _ _ lefts rights =>
    intro extent
    simp [lefts, rights, or_comm]
  | sort _ inputs => exact inputs
  | aggregate _ inputs => exact inputs

end JoinTree

/-- The same outer join, found in rearranged trees. -/
structure OuterJoin.Counterpart (outer other : OuterJoin) : Prop where
  lefts : JoinTree.Rearranged outer.left other.left
  rights : JoinTree.Rearranged outer.right other.right

namespace JoinTree

theorem HasOuterJoin.counterpart (stands : HasOuterJoin tree outer)
    (rearranged : Rearranged tree other) :
    ∃ found, HasOuterJoin other found ∧ outer.Counterpart found := by
  induction stands generalizing other with
  | here =>
    cases rearranged with
    | straight lefts rights => exact ⟨_, .here, lefts, rights⟩
  | outerLeft _ ih =>
    cases rearranged with
    | straight lefts rights =>
      obtain ⟨found, below, same⟩ := ih lefts
      exact ⟨_, .outerLeft below, same.lefts, same.rights⟩
  | outerRight _ ih =>
    cases rearranged with
    | straight lefts rights =>
      obtain ⟨found, below, same⟩ := ih rights
      exact ⟨_, .outerRight below, same⟩
  | innerLeft _ ih =>
    cases rearranged with
    | straight lefts rights =>
      obtain ⟨found, below, same⟩ := ih lefts
      exact ⟨_, .innerLeft below, same.lefts, same.rights⟩
    | exchanged lefts rights =>
      obtain ⟨found, below, same⟩ := ih lefts
      exact ⟨_, .innerRight below, same.lefts, same.rights⟩
  | innerRight _ ih =>
    cases rearranged with
    | straight lefts rights =>
      obtain ⟨found, below, same⟩ := ih rights
      exact ⟨_, .innerRight below, same.lefts, same.rights⟩
    | exchanged lefts rights =>
      obtain ⟨found, below, same⟩ := ih rights
      exact ⟨_, .innerLeft below, same.lefts, same.rights⟩
  | sort _ ih =>
    cases rearranged with
    | sort inputs =>
      obtain ⟨found, below, same⟩ := ih inputs
      exact ⟨_, .sort below, same⟩
  | aggregate _ ih =>
    cases rearranged with
    | aggregate inputs =>
      obtain ⟨found, below, same⟩ := ih inputs
      exact ⟨_, .aggregate below, same⟩

/-! ## What is visited around an outer join -/

/-- A visitation order, split around the right side of an outer join. -/
structure Around (outer : OuterJoin) (order before rights after : List Nat) : Prop where
  split : order = before ++ (rights ++ after)
  notFirst : before ≠ []
  right : rights.Perm outer.right.visitOrder
  later : ∀ extent ∈ outer.later, extent ∈ after
  others : ∀ extent ∈ after, extent ∈ outer.later ∨ extent ∈ outer.movable

section Around

variable {outer : OuterJoin} {order before rights after : List Nat}

private theorem around_here {left right left' right' : JoinTree} (rights : JoinOrder right right') :
    Around ⟨left, right, [], []⟩ (left'.visitOrder ++ right'.visitOrder) left'.visitOrder
      right'.visitOrder [] :=
  ⟨by rw [List.append_nil], visitOrder_ne_nil left', rights.visitOrder_perm, by simp, by simp⟩

private theorem Around.prepend (around : Around outer order before rights after)
    (first : List Nat) : Around outer (first ++ order) (first ++ before) rights after :=
  ⟨by rw [around.split, List.append_assoc],
    fun empty => around.notFirst (List.append_eq_nil_iff.mp empty).2, around.right, around.later,
    around.others⟩

private theorem Around.movingPast (around : Around outer order before rights after)
    (extents : List Nat) :
    Around (outer.movingPast extents) order before rights after :=
  ⟨around.split, around.notFirst, around.right, around.later, fun extent member =>
    (around.others extent member).imp_right (List.mem_append_right _)⟩

private theorem Around.append (around : Around outer order before rights after)
    {last extents : List Nat} (same : last.Perm extents) :
    Around (outer.movingPast extents) (order ++ last) before rights (after ++ last) := by
  refine ⟨by simp [around.split], around.notFirst, around.right, fun extent member =>
    List.mem_append_left _ (around.later extent member), fun extent member => ?_⟩
  rcases List.mem_append.mp member with inside | atEnd
  · exact (around.others extent inside).imp_right (List.mem_append_right _)
  · exact .inr (List.mem_append_left _ (same.mem_iff.mp atEnd))

private theorem Around.followedBy (around : Around outer order before rights after)
    {last extents : List Nat} (same : last.Perm extents) :
    Around (outer.followedBy extents) (order ++ last) before rights (after ++ last) := by
  refine ⟨by simp [around.split], around.notFirst, around.right, fun extent member => ?_,
    fun extent member => ?_⟩
  · rw [List.mem_append, same.mem_iff]
    exact (List.mem_append.mp member).symm.imp_left (around.later extent)
  · rcases List.mem_append.mp member with inside | atEnd
    · exact (around.others extent inside).imp_left (List.mem_append_right _)
    · exact .inl (List.mem_append_left _ (same.mem_iff.mp atEnd))

end Around

/-- Every join order visits the right side of an outer join in one piece. -/
theorem HasOuterJoin.around (stands : HasOuterJoin tree outer) (ordered : JoinOrder tree order) :
    ∃ before rights after, Around outer order.visitOrder before rights after := by
  induction stands generalizing order with
  | here =>
    cases ordered with
    | straight _ rights => exact ⟨_, _, _, around_here rights⟩
  | outerLeft _ ih =>
    cases ordered with
    | straight lefts rights =>
      obtain ⟨_, _, _, around⟩ := ih lefts
      exact ⟨_, _, _, around.followedBy rights.visitOrder_perm⟩
  | outerRight _ ih =>
    cases ordered with
    | straight lefts rights =>
      obtain ⟨_, _, _, around⟩ := ih rights
      exact ⟨_, _, _, around.prepend _⟩
  | innerLeft _ ih =>
    cases ordered with
    | straight lefts rights =>
      obtain ⟨_, _, _, around⟩ := ih lefts
      exact ⟨_, _, _, around.append rights.visitOrder_perm⟩
    | exchanged lefts rights =>
      obtain ⟨_, _, _, around⟩ := ih lefts
      exact ⟨_, _, _, (around.prepend _).movingPast _⟩
  | innerRight _ ih =>
    cases ordered with
    | straight lefts rights =>
      obtain ⟨_, _, _, around⟩ := ih rights
      exact ⟨_, _, _, (around.prepend _).movingPast _⟩
    | exchanged lefts rights =>
      obtain ⟨_, _, _, around⟩ := ih rights
      exact ⟨_, _, _, around.append lefts.visitOrder_perm⟩
  | sort _ ih =>
    cases ordered with
    | sort inputs =>
      obtain ⟨_, _, _, around⟩ := ih inputs
      exact ⟨_, _, _, around⟩
  | aggregate _ ih =>
    cases ordered with
    | aggregate inputs =>
      obtain ⟨_, _, _, around⟩ := ih inputs
      exact ⟨_, _, _, around⟩

/-- Some join order visits everything that may move before the outer join. -/
theorem HasOuterJoin.moved_ahead (stands : HasOuterJoin tree outer) :
    ∃ order before rights after, JoinOrder tree order ∧
      Around outer order.visitOrder before rights after ∧
        ∀ extent ∈ after, extent ∈ outer.later := by
  induction stands with
  | @here left right post =>
    exact ⟨_, _, _, _, .straight left.joinOrder_unplanned right.joinOrder_unplanned,
      around_here right.joinOrder_unplanned, by simp⟩
  | @outerLeft _ _ right _ _ ih =>
    obtain ⟨_, _, _, _, ordered, around, ahead⟩ := ih
    have same := right.joinOrder_unplanned.visitOrder_perm
    refine ⟨_, _, _, _, .straight ordered right.joinOrder_unplanned, around.followedBy same, ?_⟩
    intro extent member
    rcases List.mem_append.mp member with inside | atEnd
    · exact List.mem_append_right _ (ahead extent inside)
    · exact List.mem_append_left _ (same.mem_iff.mp atEnd)
  | @outerRight _ _ left _ _ ih =>
    obtain ⟨_, _, _, _, ordered, around, ahead⟩ := ih
    exact ⟨_, _, _, _, .straight left.joinOrder_unplanned ordered, around.prepend _, ahead⟩
  | @innerLeft _ _ right _ _ ih =>
    obtain ⟨_, _, _, _, ordered, around, ahead⟩ := ih
    exact ⟨_, _, _, _, .exchanged ordered right.joinOrder_unplanned,
      (around.prepend _).movingPast _, ahead⟩
  | @innerRight _ _ left _ _ ih =>
    obtain ⟨_, _, _, _, ordered, around, ahead⟩ := ih
    exact ⟨_, _, _, _, .straight left.joinOrder_unplanned ordered,
      (around.prepend _).movingPast _, ahead⟩
  | sort _ ih =>
    obtain ⟨_, _, _, _, ordered, around, ahead⟩ := ih
    exact ⟨_, _, _, _, .sort ordered, around, ahead⟩
  | aggregate _ ih =>
    obtain ⟨_, _, _, _, ordered, around, ahead⟩ := ih
    exact ⟨_, _, _, _, .aggregate ordered, around, ahead⟩

/-- Some join order visits everything that may move after the outer join. -/
theorem HasOuterJoin.moved_behind (stands : HasOuterJoin tree outer) :
    ∃ order before rights after, JoinOrder tree order ∧
      Around outer order.visitOrder before rights after ∧
        ∀ extent ∈ outer.movable, extent ∈ after := by
  induction stands with
  | @here left right post =>
    exact ⟨_, _, _, _, .straight left.joinOrder_unplanned right.joinOrder_unplanned,
      around_here right.joinOrder_unplanned, by simp⟩
  | @outerLeft _ _ right _ _ ih =>
    obtain ⟨_, _, _, _, ordered, around, behind⟩ := ih
    exact ⟨_, _, _, _, .straight ordered right.joinOrder_unplanned,
      around.followedBy right.joinOrder_unplanned.visitOrder_perm,
      fun extent member => List.mem_append_left _ (behind extent member)⟩
  | @outerRight _ _ left _ _ ih =>
    obtain ⟨_, _, _, _, ordered, around, behind⟩ := ih
    exact ⟨_, _, _, _, .straight left.joinOrder_unplanned ordered, around.prepend _, behind⟩
  | @innerLeft _ _ right _ _ ih =>
    obtain ⟨_, _, _, _, ordered, around, behind⟩ := ih
    have same := right.joinOrder_unplanned.visitOrder_perm
    refine ⟨_, _, _, _, .straight ordered right.joinOrder_unplanned, around.append same, ?_⟩
    intro extent member
    rw [List.mem_append, same.mem_iff]
    exact (List.mem_append.mp member).symm.imp_left (behind extent)
  | @innerRight _ _ left _ _ ih =>
    obtain ⟨_, _, _, _, ordered, around, behind⟩ := ih
    have same := left.joinOrder_unplanned.visitOrder_perm
    refine ⟨_, _, _, _, .exchanged left.joinOrder_unplanned ordered, around.append same, ?_⟩
    intro extent member
    rw [List.mem_append, same.mem_iff]
    exact (List.mem_append.mp member).symm.imp_left (behind extent)
  | sort _ ih =>
    obtain ⟨_, _, _, _, ordered, around, behind⟩ := ih
    exact ⟨_, _, _, _, .sort ordered, around, behind⟩
  | aggregate _ ih =>
    obtain ⟨_, _, _, _, ordered, around, behind⟩ := ih
    exact ⟨_, _, _, _, .aggregate ordered, around, behind⟩

end JoinTree

end ExtentPlanner
