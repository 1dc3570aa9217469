import ExtentPlanner.Proofs.ComparedOrders
import ExtentPlanner.Proofs.OuterJoins
import Mathlib.Data.List.Nodup
import Mathlib.Data.List.ProdSigma

/-! The enumeration of join orders. It begins with the order of the query itself, and where no
extent is visited twice it lists every order once: a join whose sides keep their places starts with
an extent of its left side, one whose sides are exchanged with an extent of its right side. What
planning has added to a tree has no influence on the list. -/
namespace ExtentPlanner.JoinTree

variable {tree : JoinTree}

/-! ## Order of the list -/

/-- The enumeration begins with the order of the tree itself. -/
theorem joinOrders_head (listed : tree.joinOrders = .ok orders) :
    ∃ others, orders = tree.unplanned :: others := by
  induction tree generalizing orders with
  | visit leaf =>
    cases listed
    exact ⟨[], rfl⟩
  | join kind left right post lefts rights =>
    obtain ⟨leftOrders, onLeft, listed⟩ := bind_succeeds.mp listed
    obtain ⟨rightOrders, onRight, listed⟩ := bind_succeeds.mp listed
    obtain ⟨straight, kept, listed⟩ := bind_succeeds.mp listed
    have paired := joinPairs_listed (fun _ => (mem_joinOrders onLeft).mp)
      (fun _ => (mem_joinOrders onRight).mp) kept
    obtain ⟨otherLefts, rfl⟩ := lefts onLeft
    obtain ⟨otherRights, rfl⟩ := rights onRight
    rw [List.flatMap_cons, List.map_cons, List.cons_append, List.map_cons] at paired
    subst paired
    cases kind with
    | leftOuter =>
      cases listed
      exact ⟨_, rfl⟩
    | inner =>
      obtain ⟨swapped, exchanged, listed⟩ := bind_succeeds.mp listed
      cases listed
      exact ⟨_, rfl⟩
  | sort spec input inputs | aggregate grouping presorted input inputs =>
    obtain ⟨inner, below, listed⟩ := bind_succeeds.mp listed
    cases listed
    obtain ⟨others, rfl⟩ := inputs below
    exact ⟨_, rfl⟩

/-! ## Different orders -/

/-- Joins of different sides visit the extents in different orders, as long as all orders of either
side are equally long. -/
private theorem pairedJoin_nodup (kind : JoinKind) (exchanged : Bool) {lefts rights : List JoinTree}
    (distinctLefts : (lefts.map visitOrder).Nodup) (distinctRights : (rights.map visitOrder).Nodup)
    (levelLefts : ∀ order ∈ lefts, order.visitOrder.length = leftLength)
    (levelRights : ∀ order ∈ rights, order.visitOrder.length = rightLength) :
    (((lefts ×ˢ rights).map (pairedJoin kind exchanged)).map visitOrder).Nodup := by
  rw [List.map_map]
  refine ((distinctLefts.of_map _).product (distinctRights.of_map _)).map_on ?_
  rintro ⟨left, right⟩ member ⟨left', right'⟩ member' same
  obtain ⟨isLeft, isRight⟩ := List.mem_product.mp member
  obtain ⟨isLeft', isRight'⟩ := List.mem_product.mp member'
  have sides : left.visitOrder = left'.visitOrder ∧ right.visitOrder = right'.visitOrder := by
    cases exchanged with
    | false =>
      exact List.append_inj same ((levelLefts left isLeft).trans (levelLefts left' isLeft').symm)
    | true =>
      exact (List.append_inj same
        ((levelRights right isRight).trans (levelRights right' isRight').symm)).symm
  rw [List.inj_on_of_nodup_map distinctLefts isLeft isLeft' sides.1,
    List.inj_on_of_nodup_map distinctRights isRight isRight' sides.2]

/-- An order that starts with one side of a join is none that starts with the other. -/
private theorem starts_apart {left right : JoinTree}
    (apart : ∀ first ∈ left.visitOrder, ∀ second ∈ right.visitOrder, first ≠ second)
    (ofLeft : JoinOrder left first) (ofRight : JoinOrder right second) (afterFirst afterSecond) :
    first.visitOrder ++ afterFirst ≠ second.visitOrder ++ afterSecond := by
  obtain ⟨extent, rest, starts⟩ := List.exists_cons_of_ne_nil first.visitOrder_ne_nil
  obtain ⟨extent', rest', starts'⟩ := List.exists_cons_of_ne_nil second.visitOrder_ne_nil
  have inLeft : extent ∈ left.visitOrder :=
    ofLeft.visitOrder_perm.subset (starts ▸ List.mem_cons_self)
  have inRight : extent' ∈ right.visitOrder :=
    ofRight.visitOrder_perm.subset (starts' ▸ List.mem_cons_self)
  intro same
  rw [starts, starts'] at same
  exact apart extent inLeft extent' inRight (List.cons.inj same).1

/-- Where no extent is visited twice, no two of the listed trees visit the extents in the same
order. -/
theorem joinOrders_nodup (distinct : tree.visitOrder.Nodup)
    (listed : tree.joinOrders = .ok orders) : (orders.map visitOrder).Nodup := by
  induction tree generalizing orders with
  | visit leaf =>
    cases listed
    exact List.nodup_singleton _
  | join kind left right post lefts rights =>
    obtain ⟨distinctLeft, distinctRight, apart⟩ := List.nodup_append.mp distinct
    obtain ⟨leftOrders, onLeft, listed⟩ := bind_succeeds.mp listed
    obtain ⟨rightOrders, onRight, listed⟩ := bind_succeeds.mp listed
    obtain ⟨straight, kept, listed⟩ := bind_succeeds.mp listed
    have ofLeft : ∀ order ∈ leftOrders, JoinOrder left order := fun _ => (mem_joinOrders onLeft).mp
    have ofRight : ∀ order ∈ rightOrders, JoinOrder right order :=
      fun _ => (mem_joinOrders onRight).mp
    have different : ∀ exchanged,
        (((leftOrders ×ˢ rightOrders).map (pairedJoin kind exchanged)).map visitOrder).Nodup :=
      fun exchanged => pairedJoin_nodup kind exchanged (lefts distinctLeft onLeft)
        (rights distinctRight onRight)
        (fun order member => (ofLeft order member).visitOrder_perm.length_eq)
        (fun order member => (ofRight order member).visitOrder_perm.length_eq)
    obtain rfl := joinPairs_listed ofLeft ofRight kept
    cases kind with
    | leftOuter =>
      cases listed
      exact different false
    | inner =>
      obtain ⟨swapped, exchanged, listed⟩ := bind_succeeds.mp listed
      cases listed
      obtain rfl := joinPairs_listed ofLeft ofRight exchanged
      rw [List.map_append, List.nodup_append]
      -- A straight join starts with an extent of the left side, an exchanged one with one of the
      -- right side.
      refine ⟨different false, different true, ?_⟩
      intro order isStraight order' isSwapped
      simp only [List.map_map, List.mem_map] at isStraight isSwapped
      obtain ⟨sides, member, rfl⟩ := isStraight
      obtain ⟨sides', member', rfl⟩ := isSwapped
      exact starts_apart apart (ofLeft _ (List.mem_product.mp member).1)
        (ofRight _ (List.mem_product.mp member').2) _ _
  | sort spec input inputs | aggregate grouping presorted input inputs =>
    obtain ⟨inner, below, listed⟩ := bind_succeeds.mp listed
    cases listed
    rw [List.map_map]
    exact inputs distinct below

/-! ## What has no influence -/

/-- What planning has added to a tree changes neither its join orders nor the failure to list
them. -/
theorem joinOrders_unplanned (tree : JoinTree) : tree.unplanned.joinOrders = tree.joinOrders := by
  induction tree with
  | visit leaf => rfl
  | join kind left right post lefts rights => rw [unplanned, joinOrders, lefts, rights, joinOrders]
  | sort spec input inputs => rw [unplanned, joinOrders, inputs, joinOrders]
  | aggregate grouping presorted input inputs => rw [unplanned, joinOrders, inputs, joinOrders]

theorem joinOrders_of_unplanned {tree other : JoinTree} (same : other.unplanned = tree.unplanned) :
    other.joinOrders = tree.joinOrders := by
  rw [← joinOrders_unplanned, same, joinOrders_unplanned]

theorem joinOrder_unplanned_iff : JoinOrder tree.unplanned order ↔ JoinOrder tree order := by
  constructor
  · intro ordered
    induction tree generalizing order with
    | visit leaf =>
      cases ordered
      exact .visit leaf
    | join kind left right post lefts rights =>
      cases ordered with
      | straight onLeft onRight => exact .straight (lefts onLeft) (rights onRight)
      | exchanged onLeft onRight => exact .exchanged (lefts onLeft) (rights onRight)
    | sort spec input inputs =>
      cases ordered with
      | sort below => exact .sort (inputs below)
    | aggregate grouping presorted input inputs =>
      cases ordered with
      | aggregate below => exact .aggregate (inputs below)
  · intro ordered
    induction ordered with
    | visit leaf => exact .visit leaf.fresh
    | straight _ _ lefts rights => exact .straight lefts rights
    | exchanged _ _ lefts rights => exact .exchanged lefts rights
    | sort _ inputs => exact .sort inputs
    | aggregate _ inputs => exact .aggregate inputs

theorem unplanned_of_copy? (copied : tree.copy? = .ok copy) : copy.unplanned = tree.unplanned := by
  induction tree generalizing copy with
  | visit leaf =>
    cases copied
    rfl
  | join kind left right post lefts rights =>
    obtain ⟨newLeft, onLeft, copied⟩ := bind_succeeds.mp copied
    obtain ⟨newRight, onRight, copied⟩ := bind_succeeds.mp copied
    cases copied
    rw [unplanned, unplanned, lefts onLeft, rights onRight]
  | sort spec input inputs => cases copied
  | aggregate grouping presorted input inputs => cases copied

/-! ## Extents of the listed trees -/

theorem JoinOrder.extentSet_iff (ordered : JoinOrder tree order) {set : ExtentSet} :
    order.extentSet = .ok set ↔ tree.extentSet = .ok set := by
  rw [extentSet, extentSet, ExtentSet.ofList_iff, ExtentSet.ofList_iff]
  simp only [ordered.visitOrder_perm.mem_iff]

theorem JoinOrder.nullSupplied_iff (ordered : JoinOrder tree order) {set : ExtentSet} :
    order.nullSupplied = .ok set ↔ tree.nullSupplied = .ok set := by
  rw [JoinTree.nullSupplied_iff, JoinTree.nullSupplied_iff]
  simp only [ordered.rearranged.filled]

/-- What a list of join orders has if it is complete. -/
structure Enumerates (tree : JoinTree) (orders : List JoinTree) : Prop where
  /-- Listed is the tree before planning, with the sides of any inner joins exchanged. -/
  exact : ∀ order, order ∈ orders ↔ JoinOrder tree.unplanned order
  first : orders.head? = some tree.unplanned
  count : orders.length = 2 ^ tree.innerJoins
  /-- Where no extent is visited twice, no tree is listed twice, and no two of them visit the
  extents in the same order. -/
  different : tree.visitOrder.Nodup → orders.Nodup ∧ (orders.map visitOrder).Nodup
  extents : ∀ order ∈ orders, order.visitOrder.Perm tree.visitOrder ∧
    ∀ set : ExtentSet, order.extentSet = .ok set ↔ tree.extentSet = .ok set
  filled : ∀ order ∈ orders, ∀ set : ExtentSet,
    order.nullSupplied = .ok set ↔ tree.nullSupplied = .ok set

theorem enumerates_of_joinOrders (listed : tree.joinOrders = .ok orders) :
    Enumerates tree orders where
  exact order := (mem_joinOrders listed).trans joinOrder_unplanned_iff.symm
  first := by
    obtain ⟨others, rfl⟩ := joinOrders_head listed
    rfl
  count := joinOrders_length listed
  different distinct :=
    have apart := joinOrders_nodup distinct listed
    ⟨apart.of_map _, apart⟩
  extents order member :=
    have ordered := (mem_joinOrders listed).mp member
    ⟨ordered.visitOrder_perm, fun _ => ordered.extentSet_iff⟩
  filled order member _ := ((mem_joinOrders listed).mp member).nullSupplied_iff

/-- The enumeration fails exactly if a sort or an aggregation stands below a join. Else it lists the
join orders of the tree, its own first, as many as are counted up to the greatest count. Trees that
are the same before planning have the same list; so do a tree and its copy. -/
theorem joinOrders_enumerate (tree : JoinTree) :
    SucceedsIff tree.SortsOnTop CopyRefused tree.joinOrders ∧
      (∀ orders, tree.joinOrders = .ok orders → Enumerates tree orders) ∧
      tree.orderCount = min (2 ^ tree.innerJoins) (2 ^ 64 - 1) ∧
      (∀ other : JoinTree, other.unplanned = tree.unplanned →
        other.joinOrders = tree.joinOrders) ∧
      tree.unplanned.joinOrders = tree.joinOrders ∧
      ∀ copy, tree.copy? = .ok copy → copy.joinOrders = tree.joinOrders :=
  ⟨tree.joinOrders_succeedsIff, fun _ => enumerates_of_joinOrders, tree.orderCount_eq,
    fun _ => joinOrders_of_unplanned, tree.joinOrders_unplanned,
    fun _ copied => joinOrders_of_unplanned (unplanned_of_copy? copied)⟩

/-- Persons with their pets and the toys of these, where a null test waits for the toys. -/
def petOwners : JoinTree :=
  join .inner (visit (.unplanned 0 "Person"))
    (join .leftOuter (visit (.unplanned 1 "Pet")) (visit (.unplanned 2 "Toy"))
      [.isNull (.object 2)]) []

theorem joinOrders_enumerate_petOwners :
    ∃ orders, petOwners.joinOrders = .ok orders ∧ Enumerates petOwners orders ∧
      orders.length = petOwners.orderCount ∧ (orders.map visitOrder).Nodup ∧
      petOwners.unplanned ≠ petOwners ∧ petOwners.unplanned.joinOrders = .ok orders ∧
      ∃ copy, petOwners.copy? = .ok copy ∧ copy.joinOrders = .ok orders := by
  obtain ⟨possible, complete, counted, alike, own, copies⟩ := joinOrders_enumerate petOwners
  obtain ⟨orders, listed⟩ := possible.exists_iff.mpr ⟨trivial, trivial, trivial⟩
  have lists := complete orders listed
  refine ⟨orders, listed, lists, ?_, (lists.different (by decide)).2, by decide,
    (alike _ rfl).trans listed, _, rfl, (copies _ rfl).trans listed⟩
  rw [lists.count, counted]
  rfl

end ExtentPlanner.JoinTree
