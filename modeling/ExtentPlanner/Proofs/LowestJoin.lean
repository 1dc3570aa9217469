import ExtentPlanner.Proofs.WaitingConditions

/-! The join to which a condition is attached. A join is eligible if it visits everything that the
condition reads and may fill something that it tests. Eligible joins enclose each other, because
what they have in common is read only on one side of any other join; the condition goes to the
innermost of them, and the tree around that join stays as it is. Sorts and aggregations may stand
anywhere between. -/
namespace ExtentPlanner.JoinTree

/-- A tree from which one subtree has been taken out. -/
inductive Surrounding where
  | none
  | joinLeft (kind : JoinKind) (around : Surrounding) (right : JoinTree) (post : List Condition)
  | joinRight (kind : JoinKind) (left : JoinTree) (around : Surrounding) (post : List Condition)
  | sort (spec : SortSpec) (around : Surrounding)
  | aggregate (grouping : Grouping) (presorted : Bool) (around : Surrounding)

/-- The whole tree, with a subtree put in. -/
def Surrounding.fill (inside : JoinTree) : Surrounding → JoinTree
  | none => inside
  | joinLeft kind around right post => .join kind (around.fill inside) right post
  | joinRight kind left around post => .join kind left (around.fill inside) post
  | sort spec around => .sort spec (around.fill inside)
  | aggregate grouping presorted around => .aggregate grouping presorted (around.fill inside)

/-- A join, and the tree in which it stands. -/
structure JoinPlace where
  around : Surrounding
  kind : JoinKind
  left : JoinTree
  right : JoinTree
  post : List Condition

namespace JoinPlace

def join (place : JoinPlace) : JoinTree := .join place.kind place.left place.right place.post

def tree (place : JoinPlace) : JoinTree := place.around.fill place.join

/-- The tree after one more condition has been put behind this join, and nowhere else. -/
def attach (place : JoinPlace) (condition : Condition) : JoinTree :=
  place.around.fill (.join place.kind place.left place.right (place.post ++ [condition]))

end JoinPlace

variable {filter : PostFilter} {tree left right : JoinTree} {kind : JoinKind}
  {post : List Condition} {place : JoinPlace}

/-- A join that visits all extents that a condition reads and may fill one that it tests. -/
def PostFilter.Eligible (filter : PostFilter) : JoinTree → Prop
  | join kind left right post => filter.Suits (join kind left right post)
  | visit _ | sort .. | aggregate .. => False

/-- An eligible join of a tree that has no eligible join below it, and that stands in every eligible
join of the tree. -/
structure PostFilter.Lowest (filter : PostFilter) (tree : JoinTree) (place : JoinPlace) : Prop where
  stands : place.tree = tree
  eligible : filter.Eligible place.join
  noneBelow : ∀ sub ∈ place.left.subtrees ++ place.right.subtrees, ¬filter.Eligible sub
  inEach : ∀ sub ∈ tree.subtrees, filter.Eligible sub → place.join ∈ sub.subtrees

/-! ## Eligible joins -/

theorem PostFilter.Eligible.suits (eligible : filter.Eligible tree) : filter.Suits tree := by
  cases tree with
  | join kind left right post => exact eligible
  | visit | sort | aggregate => exact eligible.elim

/-- There is an eligible join in a tree exactly if the tree as a whole suits the condition. -/
theorem exists_eligible_iff (filter : PostFilter) (tree : JoinTree) :
    (∃ sub ∈ tree.subtrees, filter.Eligible sub) ↔ filter.Suits tree := by
  constructor
  · rintro ⟨sub, below, eligible⟩
    exact eligible.suits.of_subtree below
  · intro suits
    induction tree with
    | visit leaf =>
      obtain ⟨_, extent, filled, _⟩ := suits
      cases filled
    | join kind left right post => exact ⟨_, List.mem_cons_self, suits⟩
    | sort spec input inputs | aggregate _ _ input inputs =>
      obtain ⟨sub, below, eligible⟩ := inputs suits
      exact ⟨sub, List.mem_cons_of_mem _ below, eligible⟩

theorem not_eligible_of_not_suits (unsuited : ¬filter.Suits tree) :
    ∀ sub ∈ tree.subtrees, ¬filter.Eligible sub := fun sub below eligible =>
  unsuited ((exists_eligible_iff filter tree).mp ⟨sub, below, eligible⟩)

/-- If a condition reads what it tests, only one side of a join can suit it. -/
private theorem not_suits_both (within : filter.tested.isSubset filter.references = true)
    (distinct : (left.visitOrder ++ right.visitOrder).Nodup) (onLeft : filter.Suits left) :
    ¬filter.Suits right := by
  intro onRight
  obtain ⟨extent, _, tested⟩ := onLeft.2
  have read := ExtentSet.isSubset_iff.mp within extent tested
  exact (List.nodup_append.mp distinct).2.2 extent (onLeft.1 extent read) extent
    (onRight.1 extent read) rfl

private theorem mem_subtrees_fill (around : Surrounding) (inside : JoinTree) :
    inside ∈ (around.fill inside).subtrees := by
  induction around with
  | none => exact self_mem_subtrees inside
  | joinLeft kind around right post ih =>
    exact List.mem_cons_of_mem _ (List.mem_append_left _ ih)
  | joinRight kind left around post ih =>
    exact List.mem_cons_of_mem _ (List.mem_append_right _ ih)
  | sort spec around ih | aggregate _ _ around ih => exact List.mem_cons_of_mem _ ih

theorem PostFilter.Lowest.mem_subtrees (lowest : filter.Lowest tree place) :
    place.join ∈ tree.subtrees := by
  rw [← lowest.stands]
  exact mem_subtrees_fill place.around place.join

/-! ## Lowest joins -/

/-- A join whose sides do not suit the condition has no eligible join below it. -/
private theorem lowest_here (eligible : filter.Suits (join kind left right post))
    (unsuitedLeft : ¬filter.Suits left) (unsuitedRight : ¬filter.Suits right) :
    filter.Lowest (join kind left right post) ⟨.none, kind, left, right, post⟩ := by
  have noneBelow : ∀ sub ∈ left.subtrees ++ right.subtrees, ¬filter.Eligible sub :=
    List.forall_mem_append.mpr ⟨not_eligible_of_not_suits unsuitedLeft,
      not_eligible_of_not_suits unsuitedRight⟩
  refine ⟨rfl, eligible, noneBelow, fun sub below suited => ?_⟩
  rcases List.mem_cons.mp below with rfl | deeper
  · exact List.mem_cons_self
  · exact (noneBelow sub deeper suited).elim

private theorem PostFilter.Lowest.inLeft (lowest : filter.Lowest left place)
    (unsuitedRight : ¬filter.Suits right) :
    filter.Lowest (join kind left right post)
      { place with around := .joinLeft kind place.around right post } := by
  refine ⟨congrArg (join kind · right post) lowest.stands, lowest.eligible, lowest.noneBelow,
    fun sub below eligible => ?_⟩
  rcases List.mem_cons.mp below with rfl | deeper
  · exact List.mem_cons_of_mem _ (List.mem_append_left _ lowest.mem_subtrees)
  · rcases List.mem_append.mp deeper with onLeft | onRight
    · exact lowest.inEach sub onLeft eligible
    · exact (not_eligible_of_not_suits unsuitedRight sub onRight eligible).elim

private theorem PostFilter.Lowest.inRight (lowest : filter.Lowest right place)
    (unsuitedLeft : ¬filter.Suits left) :
    filter.Lowest (join kind left right post)
      { place with around := .joinRight kind left place.around post } := by
  refine ⟨congrArg (join kind left · post) lowest.stands, lowest.eligible, lowest.noneBelow,
    fun sub below eligible => ?_⟩
  rcases List.mem_cons.mp below with rfl | deeper
  · exact List.mem_cons_of_mem _ (List.mem_append_right _ lowest.mem_subtrees)
  · rcases List.mem_append.mp deeper with onLeft | onRight
    · exact (not_eligible_of_not_suits unsuitedLeft sub onLeft eligible).elim
    · exact lowest.inEach sub onRight eligible

private theorem PostFilter.Lowest.under (lowest : filter.Lowest tree place)
    (around : Surrounding) {above : JoinTree} (stands : around.fill place.join = above)
    (subtrees : above.subtrees = above :: tree.subtrees) (passes : ¬filter.Eligible above) :
    filter.Lowest above { place with around } := by
  refine ⟨stands, lowest.eligible, lowest.noneBelow, fun sub below eligible => ?_⟩
  rw [subtrees] at below
  rcases List.mem_cons.mp below with rfl | deeper
  · exact (passes eligible).elim
  · exact lowest.inEach sub deeper eligible

/-- What has been attached has been attached to the lowest eligible join. -/
theorem attachLowest?_lowest (small : ∀ extent ∈ tree.visitOrder, extent < maxExtents)
    (distinct : tree.visitOrder.Nodup) (within : filter.tested.isSubset filter.references = true)
    (ran : tree.attachLowest? filter = .ok (some placed)) :
    ∃ place : JoinPlace, filter.Lowest tree place ∧ placed = place.attach filter.condition := by
  have attaches := attaches_of_some ran
  have whole := (attachLowest?_isSome small ran).mp rfl
  clear ran
  induction attaches with
  | @left kind left right changed post ran _ ih =>
    have smallLeft := (List.forall_mem_append.mp small).1
    have suits := (attachLowest?_isSome smallLeft ran).mp rfl
    obtain ⟨place, lowest, rfl⟩ := ih smallLeft (List.nodup_append.mp distinct).1 suits
    exact ⟨_, lowest.inLeft (not_suits_both within distinct suits), rfl⟩
  | @right kind left right changed post notLeft ran _ ih =>
    obtain ⟨smallLeft, smallRight⟩ := List.forall_mem_append.mp small
    have suits := (attachLowest?_isSome smallRight ran).mp rfl
    obtain ⟨place, lowest, rfl⟩ := ih smallRight (List.nodup_append.mp distinct).2.1 suits
    exact ⟨_, lowest.inRight (not_suits_of_none smallLeft notLeft), rfl⟩
  | @here kind left right post notLeft notRight =>
    obtain ⟨smallLeft, smallRight⟩ := List.forall_mem_append.mp small
    exact ⟨_, lowest_here whole (not_suits_of_none smallLeft notLeft)
      (not_suits_of_none smallRight notRight), rfl⟩
  | @sort input changed spec ran _ ih =>
    obtain ⟨place, lowest, rfl⟩ := ih small distinct whole
    exact ⟨_, lowest.under (.sort spec place.around) (congrArg (JoinTree.sort spec) lowest.stands)
      rfl id, rfl⟩
  | @aggregate input changed grouping presorted ran _ ih =>
    obtain ⟨place, lowest, rfl⟩ := ih small distinct whole
    exact ⟨_, lowest.under (.aggregate grouping presorted place.around)
      (congrArg (JoinTree.aggregate grouping presorted) lowest.stands) rfl id, rfl⟩

/-- A condition that reads what it tests is given back exactly if no join of the tree is eligible;
otherwise it is attached to the lowest eligible join, and nothing else changes. -/
theorem attached_to_lowest_iff (tree : JoinTree) (filter : PostFilter)
    (distinct : tree.visitOrder.Nodup) (small : ∀ extent ∈ tree.visitOrder, extent < maxExtents)
    (within : filter.tested.isSubset filter.references = true) :
    (tree.attachLowest? filter = .ok none ↔ ∀ sub ∈ tree.subtrees, ¬filter.Eligible sub) ∧
      ((∃ sub ∈ tree.subtrees, filter.Eligible sub) → ∃ place : JoinPlace,
        filter.Lowest tree place ∧
          tree.attachLowest? filter = .ok (some (place.attach filter.condition))) := by
  obtain ⟨placed?, ran, isPlaced⟩ := attachLowest?_ok small filter
  rw [← exists_eligible_iff filter tree] at isPlaced
  cases placed? with
  | none =>
    have nowhere : ¬∃ sub ∈ tree.subtrees, filter.Eligible sub := fun eligible =>
      Bool.false_ne_true (isPlaced.mpr eligible)
    refine ⟨iff_of_true ran fun sub below eligible => nowhere ⟨sub, below, eligible⟩,
      fun eligible => (nowhere eligible).elim⟩
  | some placed =>
    obtain ⟨sub, below, eligible⟩ := isPlaced.mp rfl
    obtain ⟨place, lowest, rfl⟩ := attachLowest?_lowest small distinct within ran
    exact ⟨iff_of_false (by rw [ran]; simp) fun none => none sub below eligible,
      fun _ => ⟨place, lowest, ran⟩⟩

/-- Persons with their pets, these in the order of their age and with their toys. -/
def petsByAge : JoinTree :=
  .join .leftOuter (.visit (.unplanned 0 "Person"))
    (.sort ⟨[⟨.path 1 ["age"], .ascending⟩]⟩
      (.join .leftOuter (.visit (.unplanned 1 "Pet")) (.visit (.unplanned 2 "Toy")) [])) []

/-- The test for a missing toy. -/
def missingToy : PostFilter := ⟨.isNull (.path 2 ["name"]), .ofNat 4, .ofNat 4⟩

/-- The test goes to the join of pets and toys, below the sort. -/
theorem attached_to_lowest_missingToy :
    petsByAge.visitOrder.Nodup ∧ (∀ extent ∈ petsByAge.visitOrder, extent < maxExtents) ∧
      missingToy.tested.isSubset missingToy.references = true ∧
      (∃ sub ∈ petsByAge.subtrees, missingToy.Eligible sub) ∧
      ∃ place : JoinPlace, missingToy.Lowest petsByAge place ∧
        petsByAge.attachLowest? missingToy = .ok (some (place.attach missingToy.condition)) := by
  have small : ∀ extent ∈ petsByAge.visitOrder, extent < maxExtents := by decide
  have somewhere : ∃ sub ∈ petsByAge.subtrees, missingToy.Eligible sub :=
    (exists_eligible_iff missingToy petsByAge).mpr ((attachLowest?_isSome small rfl).mp rfl)
  have attached := attached_to_lowest_iff petsByAge missingToy (by decide) small (by decide)
  exact ⟨by decide, small, by decide, somewhere, attached.2 somewhere⟩

end ExtentPlanner.JoinTree
