import ExtentPlanner.Proofs.ConditionDistribution

/-! Null tests and the outer joins above them. A row that an outer join has filled with nulls passes
by every null test evaluated below that join. The planner attaches a null test to the lowest join
that suits it, so it is passed by exactly if an outer join above fills what it tests and has such a
lower join in its right side: the right side alone then suits the test. -/
namespace ExtentPlanner

/-- A join of a tree, with what stands above it. -/
structure JoinSite where
  /-- The conditions after the join. -/
  post : List Condition
  /-- For each left outer join strictly above, the extents of its right side. -/
  above : List (List Nat)
  deriving DecidableEq

namespace JoinSite

/-- The site as seen from a join directly above, whose right side visits `rights`. -/
def under (kind : JoinKind) (rights : List Nat) (site : JoinSite) : JoinSite :=
  match kind with
  | .inner => site
  | .leftOuter => { site with above := rights :: site.above }

/-- The site with more conditions after the join. -/
def attach (site : JoinSite) (conditions : List Condition) : JoinSite :=
  { site with post := site.post ++ conditions }

/-- Whether an outer join strictly above fills an extent that a condition tests. -/
def Bypasses (site : JoinSite) (condition : Condition) : Prop :=
  ∃ rights ∈ site.above, ∃ extent ∈ condition.nullTested, extent ∈ rights

instance (site : JoinSite) (condition : Condition) : Decidable (site.Bypasses condition) :=
  inferInstanceAs (Decidable (∃ rights ∈ site.above, _))

@[simp] theorem attach_nil (site : JoinSite) : site.attach [] = site := by simp [attach]

@[simp] theorem attach_attach (site : JoinSite) (first second : List Condition) :
    (site.attach first).attach second = site.attach (first ++ second) := by
  simp [attach]

@[simp] theorem under_attach (kind : JoinKind) (rights : List Nat) (site : JoinSite)
    (conditions : List Condition) :
    (site.attach conditions).under kind rights = (site.under kind rights).attach conditions := by
  cases kind <;> rfl

@[simp] theorem bypasses_attach (site : JoinSite) (conditions : List Condition)
    (condition : Condition) :
    (site.attach conditions).Bypasses condition ↔ site.Bypasses condition := Iff.rfl

theorem bypasses_under (kind : JoinKind) (rights : List Nat) (site : JoinSite)
    (condition : Condition) : (site.under kind rights).Bypasses condition ↔
      (kind = .leftOuter ∧ ∃ extent ∈ condition.nullTested, extent ∈ rights) ∨
        site.Bypasses condition := by
  cases kind <;> simp [under, Bypasses]

end JoinSite

namespace JoinTree

/-- The joins of a tree, those below a join before it. -/
def joinSites : JoinTree → List JoinSite
  | visit _ => []
  | join kind left right post =>
    (left.joinSites ++ right.joinSites).map (·.under kind right.visitOrder) ++ [⟨post, []⟩]
  | sort _ input | aggregate _ _ input => input.joinSites

/-- Whether the right side of some outer join visits everything that a condition reads and may fill
an extent that it tests. -/
def WaitsInside (tree : JoinTree) (condition : Condition) : Prop :=
  ∃ outer ∈ tree.outerJoins, outer.right.Waits condition ∧
    ∀ extent ∈ condition.extents, extent ∈ outer.right.visitOrder

instance (tree : JoinTree) (condition : Condition) : Decidable (tree.WaitsInside condition) :=
  inferInstanceAs (Decidable (∃ outer ∈ tree.outerJoins, _))

variable {tree placed : JoinTree} {filter : PostFilter}

theorem WaitsInside.congr (rearranged : Rearranged tree other)
    (inside : tree.WaitsInside condition) : other.WaitsInside condition := by
  obtain ⟨outer, member, waits, reads⟩ := inside
  obtain ⟨found, stands, same⟩ := (mem_outerJoins.mp member).counterpart rearranged
  exact ⟨found, mem_outerJoins.mpr stands, (Waits.congr same.rights condition).mp waits,
    fun extent read => same.rights.visitOrder_perm.mem_iff.mp (reads extent read)⟩

theorem WaitsInside.waits (inside : tree.WaitsInside condition) : tree.Waits condition := by
  obtain ⟨outer, member, waits, _⟩ := inside
  exact waits.of_subtree (mem_outerJoins.mp member).right_mem_subtrees

theorem Pointwise.joinSites {related : Visit → Visit → Prop}
    (extents : ∀ a b, related a b → b.extent = a.extent) (paired : Pointwise related before after) :
    after.joinSites = before.joinSites := by
  induction paired with
  | visit paired => rfl
  | join _ rightPaired lefts rights =>
    simp [JoinTree.joinSites, lefts, rights, rightPaired.visitOrder extents]
  | sort _ inputs => exact inputs
  | aggregate _ inputs => exact inputs

/-! ## Attaching one condition -/

/-- Whether the right side of some outer join suits a condition. -/
def PostFilter.SuitsInside (filter : PostFilter) (tree : JoinTree) : Prop :=
  ∃ outer ∈ tree.outerJoins, filter.Suits outer.right

theorem PostFilter.Faithful.suitsInside_iff (faithful : filter.Faithful) (tree : JoinTree) :
    filter.SuitsInside tree ↔ tree.WaitsInside filter.condition := by
  simp only [SuitsInside, WaitsInside, faithful.suits_iff]

theorem PostFilter.SuitsInside.suits (inside : filter.SuitsInside tree) : filter.Suits tree := by
  obtain ⟨outer, member, suits⟩ := inside
  exact suits.of_subtree (mem_outerJoins.mp member).right_mem_subtrees

theorem PostFilter.suitsInside_join (filter : PostFilter) (kind : JoinKind) (left right : JoinTree)
    (post : List Condition) : filter.SuitsInside (join kind left right post) ↔
      (kind = .leftOuter ∧ filter.Suits right) ∨
        filter.SuitsInside left ∨ filter.SuitsInside right := by
  cases kind <;>
    simp [SuitsInside, outerJoins, OuterJoin.movingPast, OuterJoin.followedBy, or_and_right,
      exists_or]

/-- The condition has been attached at one join. An outer join above it fills what the condition
tests exactly if the right side of an outer join suits the condition. -/
private def AttachedAt (filter : PostFilter) (before after : JoinTree) : Prop :=
  ∃ front site back, before.joinSites = front ++ site :: back ∧
    after.joinSites = front ++ site.attach [filter.condition] :: back ∧
    (site.Bypasses filter.condition ↔ filter.SuitsInside before)

/-- A condition attached in the left side tests nothing of the right side, because all that it reads
is on the left. -/
private theorem AttachedAt.inLeft (attached : AttachedAt filter left changed)
    (faithful : filter.Faithful) (suits : filter.Suits left)
    (apart : ∀ extent ∈ left.visitOrder, extent ∉ right.visitOrder) :
    AttachedAt filter (join kind left right post) (join kind changed right post) := by
  obtain ⟨front, site, back, before, after, bypasses⟩ := attached
  have reads := ((faithful.suits_iff left).mp suits).2
  have untested : ¬ ∃ extent ∈ filter.condition.nullTested, extent ∈ right.visitOrder := by
    rintro ⟨extent, tested, onRight⟩
    exact apart extent (reads extent (filter.condition.nullTested_subset extent tested)) onRight
  have unsuited : ¬ filter.Suits right := fun suits => by
    obtain ⟨⟨extent, tested, fill⟩, _⟩ := (faithful.suits_iff right).mp suits
    exact untested ⟨extent, tested, mem_visitOrder_of_filled fill⟩
  have notRight : ¬ filter.SuitsInside right := mt PostFilter.SuitsInside.suits unsuited
  refine ⟨front.map (·.under kind right.visitOrder), site.under kind right.visitOrder,
    (back ++ right.joinSites).map (·.under kind right.visitOrder) ++ [⟨post, []⟩],
    by simp [joinSites, before], by simp [joinSites, after], ?_⟩
  rw [JoinSite.bypasses_under, filter.suitsInside_join, bypasses]
  simp only [untested, unsuited, notRight, and_false, false_or, or_false]

/-- A condition attached in the right side tests something that the right side fills, and so does an
outer join of the two sides. -/
private theorem AttachedAt.inRight (attached : AttachedAt filter right changed)
    (faithful : filter.Faithful) (same : changed.visitOrder = right.visitOrder)
    (suits : filter.Suits right) (unsuited : ¬ filter.Suits left) :
    AttachedAt filter (join kind left right post) (join kind left changed post) := by
  obtain ⟨front, site, back, before, after, bypasses⟩ := attached
  obtain ⟨⟨extent, tested, fill⟩, _⟩ := (faithful.suits_iff right).mp suits
  have tests : ∃ extent ∈ filter.condition.nullTested, extent ∈ right.visitOrder :=
    ⟨extent, tested, mem_visitOrder_of_filled fill⟩
  have notLeft : ¬ filter.SuitsInside left := mt PostFilter.SuitsInside.suits unsuited
  refine ⟨(left.joinSites ++ front).map (·.under kind right.visitOrder),
    site.under kind right.visitOrder, back.map (·.under kind right.visitOrder) ++ [⟨post, []⟩],
    by simp [joinSites, before], by simp [joinSites, after, same], ?_⟩
  rw [JoinSite.bypasses_under, filter.suitsInside_join, bypasses]
  simp only [tests, suits, notLeft, and_true, false_or]

private theorem attachedAt_top (unsuitedLeft : ¬ filter.Suits left)
    (unsuitedRight : ¬ filter.Suits right) :
    AttachedAt filter (join kind left right post)
      (join kind left right (post ++ [filter.condition])) := by
  refine ⟨(left.joinSites ++ right.joinSites).map (·.under kind right.visitOrder),
    ⟨post, []⟩, [], rfl, rfl, ?_⟩
  have notLeft : ¬ filter.SuitsInside left := mt PostFilter.SuitsInside.suits unsuitedLeft
  have notRight : ¬ filter.SuitsInside right := mt PostFilter.SuitsInside.suits unsuitedRight
  simp [filter.suitsInside_join, JoinSite.Bypasses, unsuitedRight, notLeft, notRight]

private theorem attachLowest?_attachedAt (small : ∀ extent ∈ tree.visitOrder, extent < maxExtents)
    (distinct : tree.visitOrder.Nodup) (faithful : filter.Faithful)
    (ran : tree.attachLowest? filter = .ok (some placed)) : AttachedAt filter tree placed := by
  have attaches := attaches_of_some ran
  clear ran
  induction attaches with
  | @left kind left right changed post ran _ ih =>
    obtain ⟨smallLeft, _⟩ := List.forall_mem_append.mp small
    obtain ⟨distinctLeft, _, apart⟩ := List.nodup_append.mp distinct
    exact (ih smallLeft distinctLeft).inLeft faithful
      ((attachLowest?_isSome smallLeft ran).mp rfl)
      fun extent onLeft onRight => apart extent onLeft extent onRight rfl
  | @right kind left right changed post notLeft ran _ ih =>
    obtain ⟨smallLeft, smallRight⟩ := List.forall_mem_append.mp small
    obtain ⟨_, distinctRight, _⟩ := List.nodup_append.mp distinct
    have same : changed.visitOrder = right.visitOrder := by
      rw [← outline_visitOrder, (attachLowest?_some ran).2.1, outline_visitOrder]
    exact (ih smallRight distinctRight).inRight faithful same
      ((attachLowest?_isSome smallRight ran).mp rfl) (not_suits_of_none smallLeft notLeft)
  | @here kind left right post notLeft notRight =>
    obtain ⟨smallLeft, smallRight⟩ := List.forall_mem_append.mp small
    exact attachedAt_top (not_suits_of_none smallLeft notLeft)
      (not_suits_of_none smallRight notRight)
  | sort _ _ ih | aggregate _ _ ih =>
    obtain ⟨front, site, back, attached⟩ := ih small distinct
    exact ⟨front, site, back, attached⟩

/-! ## Attaching all conditions that wait -/

/-- Each join of `after` has what it had in `before` and the conditions `added` to it. An outer join
above it fills what such a condition tests exactly if the condition waits inside the right side of
an outer join. -/
structure PostsAdded (before after : JoinTree) (added : List (List Condition)) : Prop where
  length : added.length = before.joinSites.length
  sites : after.joinSites = List.zipWith JoinSite.attach before.joinSites added
  bypassed : ∀ pair ∈ before.joinSites.zip added, ∀ condition ∈ pair.2,
    (pair.1.Bypasses condition ↔ before.WaitsInside condition)

private theorem postsAdded_nil (tree : JoinTree) :
    PostsAdded tree tree (tree.joinSites.map fun _ => []) := by
  refine ⟨by simp, ?_, fun pair member condition inside => ?_⟩
  · generalize tree.joinSites = sites
    induction sites with
    | nil => rfl
    | cons site rest ih => simpa using ih
  · obtain ⟨_, _, same⟩ := List.mem_map.mp (List.of_mem_zip member).2
    rw [← same] at inside
    cases inside

/-- One more condition, attached before all others. -/
private theorem AttachedAt.postsAdded {middle : JoinTree} (attached : AttachedAt filter tree middle)
    (faithful : filter.Faithful) (rearranged : Rearranged tree middle)
    (rest : PostsAdded middle placed others) :
    ∃ added, PostsAdded tree placed added ∧
      added.flatten.Perm (filter.condition :: others.flatten) := by
  obtain ⟨front, site, back, before, after, bypasses⟩ := attached
  obtain ⟨length, sites, bypassed⟩ := rest
  rw [after, List.length_append, List.length_cons] at length
  obtain ⟨first, tail, rfl, short⟩ : ∃ first tail, others = first ++ tail ∧
      first.length = front.length :=
    ⟨_, _, (List.take_append_drop front.length others).symm, by rw [List.length_take]; omega⟩
  obtain ⟨own, last, rfl⟩ : ∃ own last, tail = own :: last := by
    refine List.exists_cons_of_ne_nil ?_
    rintro rfl
    simp only [List.append_nil] at length
    omega
  have same : ∀ condition, tree.WaitsInside condition ↔ middle.WaitsInside condition := fun _ =>
    ⟨WaitsInside.congr rearranged, WaitsInside.congr rearranged.symm⟩
  refine ⟨first ++ (filter.condition :: own) :: last, ⟨?_, ?_, ?_⟩, ?_⟩
  · simpa [before] using length
  · rw [sites, after, before, List.zipWith_append short.symm, List.zipWith_append short.symm]
    simp
  · rw [before, List.zip_append short.symm, List.zip_cons_cons, List.forall_mem_append,
      List.forall_mem_cons, List.forall_mem_cons]
    rw [after, List.zip_append short.symm, List.zip_cons_cons, List.forall_mem_append,
      List.forall_mem_cons] at bypassed
    simp only [same]
    exact ⟨bypassed.1, ⟨bypasses.trans ((faithful.suitsInside_iff tree).trans (same _)),
      bypassed.2.1⟩, bypassed.2.2⟩
  · simp

end JoinTree

namespace Candidate

open JoinTree

variable {top tree placed : JoinTree} {filters : List PostFilter} {table : ConjunctTable}

/-- Attaching conditions one after the other adds each of them to some join. -/
theorem attachPostFilters_adds (small : ∀ extent ∈ top.visitOrder, extent < maxExtents)
    (distinct : top.visitOrder.Nodup) (faithful : ∀ filter ∈ filters, filter.Faithful)
    (ran : attachPostFilters top filters = (placed, .ok ())) :
    ∃ added, PostsAdded top placed added ∧ added.flatten.Perm (filters.map (·.condition)) := by
  induction filters generalizing top with
  | nil =>
    cases ran
    refine ⟨_, postsAdded_nil _, ?_⟩
    rw [List.flatten_eq_nil_iff.mpr fun conditions member => by
      obtain ⟨_, _, same⟩ := List.mem_map.mp member
      exact same.symm]
    exact .refl _
  | cons filter rest ih =>
    obtain ⟨faithfulHead, faithfulRest⟩ := List.forall_mem_cons.mp faithful
    rw [attachPostFilters] at ran
    split at ran
    · rename_i next attached
      have rearranged := rearranged_of_outline (attachLowest?_some attached).2.1
      obtain ⟨others, addsOthers, all⟩ := ih (small_of_rearranged rearranged small)
        (rearranged.visitOrder_perm.nodup_iff.mp distinct) faithfulRest ran
      obtain ⟨added, adds, one⟩ := (attachLowest?_attachedAt small distinct faithfulHead
        attached).postsAdded faithfulHead rearranged addsOthers
      exact ⟨added, adds, one.trans (all.cons _)⟩
    · cases ran
    · cases ran

/-- Wherever conditions are distributed, no outer join above the join that gets a condition fills
what the condition tests, exactly if it does not wait inside the right side of an outer join. -/
theorem null_tests_unbypassed_iff {next : Candidate} (filled : table.Filled)
    (distinct : tree.visitOrder.Nodup) (small : ∀ extent ∈ tree.visitOrder, extent < maxExtents)
    (ran : (ofTree tree).distributeConditions table = (next, .ok ())) :
    ∃ added, added.length = tree.joinSites.length ∧
      next.top.joinSites = List.zipWith JoinSite.attach tree.joinSites added ∧
      ∀ condition ∈ table.conditions,
        ((∀ pair ∈ tree.joinSites.zip added, condition ∈ pair.2 → ¬ pair.1.Bypasses condition) ↔
          ¬ tree.WaitsInside condition) := by
  have sorted := filled.sorted
  obtain ⟨supplied, placement, fills, placed, attached, _, complete⟩ := distributeConditions_ok ran
  dsimp only [ofTree] at fills placed attached
  have paired := tree.mapVisits_pointwise fun position leaf =>
    leaf.addConditions (placement.conditionsAt position)
  have visited := tree.rearranged_mapVisits (fun position leaf =>
    leaf.addConditions (placement.conditionsAt position)) fun _ _ => rfl
  have sites := paired.joinSites (by rintro before _ ⟨_, rfl⟩; rfl)
  obtain ⟨added, ⟨length, grown, bypassed⟩, all⟩ := attachPostFilters_adds
    (small_of_rearranged visited small) (visited.visitOrder_perm.nodup_iff.mp distinct)
    (postFilters_faithful sorted fills placed) attached
  rw [sites] at length grown bypassed
  refine ⟨added, length, grown, fun condition stored => ⟨fun unbypassed inside => ?_,
    fun notInside pair member added bypasses => ?_⟩⟩
  · have waits : condition ∈ added.flatten := all.mem_iff.mpr
      ((mem_waiting_iff sorted fills placed complete).mpr ⟨stored, inside.waits⟩)
    obtain ⟨own, member, here⟩ := List.mem_flatten.mp waits
    rw [← List.map_snd_zip (Nat.le_of_eq length)] at member
    obtain ⟨pair, zipped, rfl⟩ := List.mem_map.mp member
    exact unbypassed pair zipped here
      ((bypassed pair zipped condition here).mpr (inside.congr visited))
  · exact notInside (((bypassed pair member condition added).mp bypasses).congr visited.symm)

/-- Persons, some with pets, which again may have toys. -/
def petsWithToys : JoinTree :=
  .join .leftOuter (.visit (.unplanned 0 "Person"))
    (.join .leftOuter (.visit (.unplanned 1 "Pet")) (.visit (.unplanned 2 "Toy")) []) []

def noPet : Condition := .isNull (.path 1 ["name"])

def noToy : Condition := .isNull (.path 2 ["name"])

def missingConditions : ConjunctTable := (ConjunctTable.empty.addAll [noPet, noToy]).1

theorem missingConditions_filled : missingConditions.Filled :=
  ConjunctTable.Filled.empty.addAll _

/-- The test for a missing pet is evaluated after the join with the persons. -/
theorem null_test_of_pet_unbypassed :
    ∃ next added, (ofTree petsWithToys).distributeConditions missingConditions = (next, .ok ()) ∧
      next.top.joinSites = List.zipWith JoinSite.attach petsWithToys.joinSites added ∧
      ∀ pair ∈ petsWithToys.joinSites.zip added, noPet ∈ pair.2 → ¬ pair.1.Bypasses noPet := by
  have distributed : ∃ next,
      (ofTree petsWithToys).distributeConditions missingConditions = (next, .ok ()) := ⟨_, rfl⟩
  obtain ⟨next, ran⟩ := distributed
  obtain ⟨added, _, sites, unbypassed⟩ :=
    null_tests_unbypassed_iff missingConditions_filled (by decide) (by decide) ran
  exact ⟨next, added, ran, sites, (unbypassed noPet (by decide)).mpr (by decide)⟩

/-- The test for a missing toy is evaluated before the join with the persons, and passed by for a
person without pets. -/
theorem null_test_of_toy_bypassed :
    petsWithToys.visitOrder.Nodup ∧ (∀ extent ∈ petsWithToys.visitOrder, extent < maxExtents) ∧
      missingConditions.Filled ∧
      ∃ next, (ofTree petsWithToys).distributeConditions missingConditions = (next, .ok ()) ∧
        ∃ site ∈ next.top.joinSites, noToy ∈ site.post ∧ site.Bypasses noToy :=
  ⟨by decide, by decide, missingConditions_filled, _, rfl, by decide⟩

end Candidate

end ExtentPlanner
