import ExtentPlanner.Proofs.DeliveredOrder
import ExtentPlanner.Proofs.PlannedVisits
import ExtentPlanner.Proofs.PresortedInput

/-! The order of groups. An aggregation has one row for each group and gives them in the order of
its grouping, in whatever order its input came. The sort above one is taken away as if the rows of
the visits came through unchanged, and the grouping is not looked at. The groups are in the order
that was asked for exactly if it and the grouping name the same items as far as both have some,
apart from items that repeat an operand. -/
namespace ExtentPlanner

/-! ## Items that decide -/

namespace SortSpec

/-- The items whose operand has not been compared by an earlier one or before. -/
def decisiveFrom (compared : List Operand) : List SortItem → List SortItem
  | [] => []
  | item :: rest =>
    if item.operand ∈ compared then decisiveFrom compared rest
    else item :: decisiveFrom (item.operand :: compared) rest

/-- The items that can decide between two rows. Rows that reach an item agree on the operands of
those before it. -/
def decisive (spec : SortSpec) : List SortItem := decisiveFrom [] spec.items

/-- The two specifications have the same deciding items, as far as both have some. -/
def Compatible (first second : SortSpec) : Prop :=
  first.decisive <+: second.decisive ∨ second.decisive <+: first.decisive

instance (first second : SortSpec) : Decidable (first.Compatible second) :=
  inferInstanceAs (Decidable (_ ∨ _))

/-- The items as parts of groups, given the value of each operand in a group. -/
def groupParts {Group Value : Type} (valueOf : Operand → Group → Value) (items : List SortItem) :
    List ((Group → Value) × Direction) :=
  items.map fun item => (valueOf item.operand, item.direction)

theorem groupParts_append {Group Value : Type} (valueOf : Operand → Group → Value)
    (leading rest : List SortItem) : groupParts valueOf (leading ++ rest) =
      groupParts valueOf leading ++ groupParts valueOf rest := List.map_append

theorem decisiveFrom_apart (compared : List Operand) (items : List SortItem) :
    ((decisiveFrom compared items).map (·.operand)).Nodup ∧
      ∀ item ∈ decisiveFrom compared items, item.operand ∉ compared := by
  induction items generalizing compared with
  | nil => exact ⟨List.nodup_nil, by simp [decisiveFrom]⟩
  | cons item rest ih =>
    rw [decisiveFrom]
    split
    · exact ih compared
    · rename_i new
      obtain ⟨distinct, apart⟩ := ih (item.operand :: compared)
      refine ⟨List.nodup_cons.mpr ⟨fun repeated => ?_, distinct⟩,
        List.forall_mem_cons.mpr ⟨new, fun other member known => ?_⟩⟩
      · obtain ⟨other, member, same⟩ := List.mem_map.mp repeated
        exact apart other member (same ▸ List.mem_cons_self)
      · exact apart other member (List.mem_cons_of_mem _ known)

variable {Group Value : Type} [LinearOrder Value] {valueOf : Operand → Group → Value}
  {first second : Group}

/-- Only deciding items decide. -/
theorem inOrder_decisiveFrom {compared : List Operand} (items : List SortItem)
    (agree : ∀ operand ∈ compared, valueOf operand first = valueOf operand second) :
    InOrder (groupParts valueOf (decisiveFrom compared items)) first second ↔
      InOrder (groupParts valueOf items) first second := by
  induction items generalizing compared with
  | nil => exact Iff.rfl
  | cons item rest ih =>
    rw [decisiveFrom]
    split
    · rename_i repeated
      have leading : ∀ part ∈ groupParts valueOf [item], part.1 first = part.1 second := by
        simpa [groupParts] using agree item.operand repeated
      exact (ih agree).trans (inOrder_append leading).symm
    · refine or_congr_right (and_congr_right fun same => ?_)
      exact ih (List.forall_mem_cons.mpr ⟨same, agree⟩)

theorem inOrder_decisive (spec : SortSpec) :
    InOrder (groupParts valueOf spec.decisive) first second ↔
      InOrder (groupParts valueOf spec.items) first second :=
  inOrder_decisiveFrom spec.items (by simp)

end SortSpec

section Parts

variable {Item Value : Type} [LinearOrder Value] {parts rest : List ((Item → Value) × Direction)}
  {first second : Item}

theorem inOrder_of_append (ordered : InOrder (parts ++ rest) first second) :
    InOrder parts first second := by
  induction parts with
  | nil => trivial
  | cons part parts ih => exact ordered.imp_right fun tied => ⟨tied.1, ih tied.2⟩

/-- Further parts have no say where the leading ones decide. -/
theorem inOrder_append_of_decided (ordered : InOrder parts first second)
    (decided : ¬ InOrder parts second first) : InOrder (parts ++ rest) first second := by
  induction parts with
  | nil => exact absurd trivial decided
  | cons part parts ih =>
    rcases ordered with before | ⟨tied, below⟩
    · exact .inl before
    · exact .inr ⟨tied, ih below fun reversed => decided (.inr ⟨tied.symm, reversed⟩)⟩

private theorem Direction.Before.irreversible {direction : Direction} {value other : Value}
    (before : direction.Before value other) : ¬ direction.Before other value ∧ other ≠ value := by
  cases direction with
  | ascending => exact ⟨lt_asymm before, ne_of_gt before⟩
  | descending => exact ⟨lt_asymm before, ne_of_lt before⟩

/-- The first part on which two items differ puts them in order, and not in the other one. -/
theorem inOrder_of_first {leading : List ((Item → Value) × Direction)} {value : Item → Value}
    {direction : Direction} (agree : ∀ part ∈ leading, part.1 first = part.1 second)
    (before : direction.Before (value first) (value second)) :
    InOrder (leading ++ (value, direction) :: rest) first second ∧
      ¬ InOrder (leading ++ (value, direction) :: rest) second first := by
  obtain ⟨notBefore, differ⟩ := before.irreversible
  rw [inOrder_append agree, inOrder_append fun part member => (agree part member).symm]
  refine ⟨.inl before, ?_⟩
  rintro (reversed | ⟨tied, _⟩)
  · exact notBefore reversed
  · exact differ tied

end Parts

/-! ## Groups of an aggregation -/

/-- Groups as an aggregation gives them: in the order of the grouping, and none twice. The values
are given by operand and group, so that even a literal or a parameter may have another value in each
group. -/
def SortSpec.Groups {Group Value : Type} [LinearOrder Value] (groupBy : SortSpec)
    (valueOf : Operand → Group → Value) (groups : List Group) : Prop :=
  groups.Pairwise fun first second =>
    InOrder (SortSpec.groupParts valueOf groupBy.items) first second ∧
      ¬ InOrder (SortSpec.groupParts valueOf groupBy.items) second first

/-- The tree is an aggregation whose groups come in the order of the specification, whatever they
are and whatever values operands have in them. Literals and parameters are no exception: as they do
not really change from group to group, the order asked for may come about with constant items where
it fails here. -/
def JoinTree.GroupsOrdered (tree : JoinTree) (spec : SortSpec) : Prop :=
  ∃ grouping presorted input, tree = .aggregate grouping presorted input ∧
    ∀ (Group Value : Type) [LinearOrder Value] (valueOf : Operand → Group → Value)
      (groups : List Group), grouping.groupBy.Groups valueOf groups →
        groups.Pairwise (InOrder (SortSpec.groupParts valueOf spec.items))

namespace SortSpec

theorem Compatible.ordered {spec groupBy : SortSpec} (compatible : spec.Compatible groupBy)
    {Group Value : Type} [LinearOrder Value] {valueOf : Operand → Group → Value}
    {groups : List Group} (given : groupBy.Groups valueOf groups) :
    groups.Pairwise (InOrder (groupParts valueOf spec.items)) := by
  refine given.imp fun {first second} => ?_
  rw [← inOrder_decisive groupBy, ← inOrder_decisive groupBy, ← inOrder_decisive spec]
  rintro ⟨ordered, decided⟩
  -- A shorter grouping is enough as well: it has told all groups apart.
  rcases compatible with ⟨rest, same⟩ | ⟨rest, same⟩
  · rw [← same, groupParts_append] at ordered
    exact inOrder_of_append ordered
  · rw [← same, groupParts_append]
    exact inOrder_append_of_decided ordered decided

private theorem prefix_or_diverge (first second : List SortItem) :
    first <+: second ∨ second <+: first ∨ ∃ leading item rest item' rest',
      first = leading ++ item :: rest ∧ second = leading ++ item' :: rest' ∧ item ≠ item' := by
  induction first generalizing second with
  | nil => exact .inl (List.nil_prefix)
  | cons item first ih =>
    cases second with
    | nil => exact .inr (.inl List.nil_prefix)
    | cons item' second =>
      by_cases same : item = item'
      · subst same
        rcases ih second with before | after | ⟨leading, own, rest, other, rest', rfl, rfl, differ⟩
        · exact .inl (List.cons_prefix_cons.mpr ⟨rfl, before⟩)
        · exact .inr (.inl (List.cons_prefix_cons.mpr ⟨rfl, after⟩))
        · exact .inr (.inr ⟨item :: leading, own, rest, other, rest', rfl, rfl, differ⟩)
      · exact .inr (.inr ⟨[], item, first, item', second, rfl, rfl, same⟩)

/-! ### Groups in the order of the grouping only -/

/-- A value that comes first in a direction. -/
private def early : Direction → Nat
  | .ascending => 0
  | .descending => 1

/-- A value that comes last in a direction. -/
private def late (direction : Direction) : Nat := early direction.reverse

private theorem before_early_late (direction : Direction) :
    direction.Before (early direction) (late direction) := by
  cases direction <;> exact Nat.zero_lt_one

/-- The value of an operand in a group that is given by these values. -/
private def valueIn (operand : Operand) (group : Operand → Nat) : Nat := group operand

/-- A group with values of its own for two operands. -/
private def groupOf (grouped sorted : Operand) (value other : Nat) (operand : Operand) : Nat :=
  if operand = grouped then value else if operand = sorted then other else 0

/-- The group that comes first by the grouping item and last by the other one. -/
private def former (grouped sorted : SortItem) : Operand → Nat :=
  groupOf grouped.operand sorted.operand (early grouped.direction) (late sorted.direction)

/-- The group that comes last by the grouping item and first by the other one. -/
private def latter (grouped sorted : SortItem) : Operand → Nat :=
  groupOf grouped.operand sorted.operand (late grouped.direction) (early sorted.direction)

private theorem grouped_before (grouped sorted : SortItem) : grouped.direction.Before
    (former grouped sorted grouped.operand) (latter grouped sorted grouped.operand) := by
  simpa [former, latter, groupOf] using before_early_late grouped.direction

/-- Different items that compare the same operand do so in different directions. -/
private theorem sorted_after {grouped sorted : SortItem} (differ : sorted ≠ grouped) :
    sorted.direction.Before (latter grouped sorted sorted.operand)
      (former grouped sorted sorted.operand) := by
  obtain ⟨operand, direction⟩ := sorted
  obtain ⟨operand', direction'⟩ := grouped
  by_cases same : operand = operand'
  · subst same
    have reversed : direction = direction'.reverse := by
      cases direction <;> cases direction' <;> simp [Direction.reverse] at differ ⊢
    subst reversed
    exact (Direction.before_reverse ..).mpr (grouped_before ⟨operand, direction'⟩ _)
  · simpa [former, latter, groupOf, same] using before_early_late direction

private theorem leading_tied {spec groupBy : SortSpec}
    (sorts : spec.decisive = leading ++ sorted :: rest)
    (groups : groupBy.decisive = leading ++ grouped :: rest') :
    ∀ part ∈ groupParts valueIn leading,
      part.1 (former grouped sorted) = part.1 (latter grouped sorted) := by
  have apart : ∀ {spec : SortSpec} {next rest}, spec.decisive = leading ++ next :: rest →
      ∀ item ∈ leading, item.operand ≠ next.operand := by
    intro spec next rest items item member
    have distinct := (decisiveFrom_apart [] spec.items).1
    rw [show decisiveFrom [] spec.items = _ from items, List.map_append,
      List.nodup_append] at distinct
    exact distinct.2.2 _ (List.mem_map_of_mem member) _ List.mem_cons_self
  intro part member
  obtain ⟨item, inside, rfl⟩ := List.mem_map.mp member
  simp [valueIn, former, latter, groupOf, apart sorts item inside, apart groups item inside]

/-- Where the deciding items part, two groups in the order of the grouping are not in the order of
the specification. -/
private theorem exists_unordered {spec groupBy : SortSpec}
    (sorts : spec.decisive = leading ++ sorted :: rest)
    (grouping : groupBy.decisive = leading ++ grouped :: rest') (differ : sorted ≠ grouped) :
    ∃ groups, groupBy.Groups valueIn groups ∧
      ¬ groups.Pairwise (InOrder (groupParts valueIn spec.items)) := by
  have tied := leading_tied sorts grouping
  refine ⟨[former grouped sorted, latter grouped sorted], ?_, ?_⟩
  · rw [Groups, List.pairwise_pair, ← inOrder_decisive groupBy, ← inOrder_decisive groupBy,
      grouping, groupParts_append]
    exact inOrder_of_first tied (grouped_before grouped sorted)
  · rw [List.pairwise_pair, ← inOrder_decisive spec, sorts, groupParts_append]
    exact (inOrder_of_first (fun part member => (tied part member).symm) (sorted_after differ)).2

end SortSpec

/-- The groups of an aggregation come in the order of a specification exactly if this and the
grouping are compatible. That is enough whatever the items are, but more than is needed if some are
constant, as their values are left open too. -/
theorem JoinTree.groupsOrdered_iff {grouping : Grouping} {spec : SortSpec} :
    (aggregate grouping presorted input).GroupsOrdered spec ↔
      spec.Compatible grouping.groupBy := by
  constructor
  · rintro ⟨_, _, _, ⟨⟩, ordered⟩
    rcases SortSpec.prefix_or_diverge spec.decisive grouping.groupBy.decisive with
      leads | follows | ⟨leading, sorted, rest, grouped, rest', sorts, groups, differ⟩
    · exact .inl leads
    · exact .inr follows
    · obtain ⟨given, inGrouping, unordered⟩ := SortSpec.exists_unordered sorts groups differ
      exact absurd (ordered _ _ _ given inGrouping) unordered
  · exact fun compatible => ⟨grouping, presorted, input, rfl, fun _ _ _ _ _ => compatible.ordered⟩

/-! ## Another grouping under the sort -/

namespace Candidate

variable {candidate next : Candidate} {catalog : Catalog}

/-- The candidate with a sort at the top and an aggregation directly under it. -/
def sortedGroups (candidate : Candidate) (spec : SortSpec) (presorted : Bool) (input : JoinTree)
    (grouping : Grouping) : Candidate :=
  { candidate with top := .sort spec (.aggregate grouping presorted input) }

theorem top_sortedGroups (candidate : Candidate) (spec : SortSpec) (presorted : Bool)
    (input : JoinTree) (grouping : Grouping) :
    (candidate.sortedGroups spec presorted input grouping).top =
      .sort spec (.aggregate grouping presorted input) := rfl

/-- Setting order indexes does the same to the input of an aggregation whatever the grouping is. -/
theorem setOrderIndexes_sortedGroups (candidate : Candidate) (spec : SortSpec) (presorted : Bool)
    (input : JoinTree) (settings : List (Nat × Option IndexUse)) :
    ∃ (changed : Candidate) (changedInput : JoinTree) (outcome : Planned Unit), ∀ grouping,
      (candidate.sortedGroups spec presorted input grouping).setOrderIndexes settings =
        (changed.sortedGroups spec presorted changedInput grouping, outcome) := by
  -- Both the candidate and the input of the aggregation change from one setting to the next.
  induction settings generalizing candidate input with
  | nil => exact ⟨candidate.forgetCost, input, .ok (), fun _ => rfl⟩
  | cons setting rest ih =>
    cases modified : input.modifyVisit? setting.1 (·.setOrderIndex setting.2) with
    | none =>
      refine ⟨candidate, input, .error (.internal (.noExtentNode setting.1)), fun grouping => ?_⟩
      rw [setOrderIndexes, modifyVisit, sortedGroups, JoinTree.modifyVisit?, JoinTree.modifyVisit?,
        modified]
      rfl
    | some below =>
      obtain ⟨changed, changedInput, outcome, each⟩ := ih candidate below
      refine ⟨changed, changedInput, outcome, fun grouping => ?_⟩
      rw [setOrderIndexes, modifyVisit, sortedGroups, JoinTree.modifyVisit?, JoinTree.modifyVisit?,
        modified]
      exact each grouping

private theorem restoreOrderIndexes_sortedGroups (candidate : Candidate) (spec : SortSpec)
    (presorted : Bool) (input : JoinTree) (previous : List (Nat × Option IndexUse)) :
    ∃ outcome, ∀ grouping,
      ((candidate.sortedGroups spec presorted input grouping).restoreOrderIndexes previous).2 =
        outcome := by
  obtain ⟨changed, changedInput, outcome, each⟩ :=
    candidate.setOrderIndexes_sortedGroups spec presorted input previous
  cases outcome with
  | ok => exact ⟨.ok false, fun grouping => by rw [restoreOrderIndexes, each]⟩
  | error failure => exact ⟨.error failure, fun grouping => by rw [restoreOrderIndexes, each]⟩

private theorem rememberCost_sortedGroups (candidate : Candidate) (spec : SortSpec)
    (presorted : Bool) (input : JoinTree) : ∃ cost, ∀ grouping,
      (candidate.sortedGroups spec presorted input grouping).rememberCost =
        sortedGroups { candidate with knownCost? := some cost } spec presorted input grouping := by
  cases known : candidate.knownCost? with
  | some cost =>
    exact ⟨cost, fun _ => by simp only [rememberCost, currentCost, sortedGroups, known]⟩
  | none =>
    refine ⟨JoinTree.sortCost (if presorted then input.cost else JoinTree.sortCost input.cost),
      fun _ => ?_⟩
    simp only [rememberCost, currentCost, sortedGroups, known, JoinTree.cost]

/-- Whether the sort over an aggregation is taken away does not depend on the grouping. -/
theorem replaceSort_sortedGroups (candidate : Candidate) (catalog : Catalog) (spec : SortSpec)
    (presorted : Bool) (input : JoinTree) : ∃ outcome, ∀ grouping,
      ((candidate.sortedGroups spec presorted input grouping).replaceSort catalog).2 = outcome := by
  -- The search for order indexes sees the visits alone, so it may as well start below the
  -- aggregation.
  let below : Candidate := { candidate with top := input }
  have assignable : ∀ grouping,
      (candidate.sortedGroups spec presorted input grouping).orderAssignments? catalog spec =
        below.orderAssignments? catalog spec := fun _ => rfl
  cases found : below.orderAssignments? catalog spec with
  | none =>
    exact ⟨.ok false, fun grouping => by
      simp only [replaceSort, top_sortedGroups, assignable, found]⟩
  | some assignments =>
    obtain ⟨cost, remembers⟩ := candidate.rememberCost_sortedGroups spec presorted input
    obtain ⟨changed, changedInput, assigned, sets⟩ :=
      setOrderIndexes_sortedGroups { candidate with knownCost? := some cost } spec presorted input
        (assignedOrderIndexes assignments)
    cases assigned with
    | error failure =>
      refine ⟨.error failure, fun grouping => ?_⟩
      simp only [replaceSort, top_sortedGroups, assignable, found, remembers, sets]
    | ok =>
      obtain ⟨restored, restores⟩ := changed.restoreOrderIndexes_sortedGroups spec presorted
        changedInput (below.previousOrderIndexes assignments)
      have known : ∀ grouping, (sortedGroups { candidate with knownCost? := some cost } spec
          presorted input grouping).currentCost = cost := fun _ => rfl
      obtain ⟨changedCost, costs⟩ : ∃ cost, ∀ grouping,
          (JoinTree.aggregate grouping presorted changedInput).cost = cost :=
        ⟨if presorted then changedInput.cost else JoinTree.sortCost changedInput.cost, fun _ => rfl⟩
      refine ⟨if changedCost < cost then .ok true else restored, fun grouping => ?_⟩
      simp only [replaceSort, top_sortedGroups, assignable, found, remembers, sets, known, costs]
      by_cases cheaper : changedCost < cost
      · simp only [if_pos cheaper]
      · simp only [if_neg cheaper]
        exact restores grouping

/-- What is left under a sort over an aggregation is the aggregation. -/
theorem replaceSort_keeps_grouping
    (top : candidate.top = .sort spec (.aggregate grouping presorted input))
    (ran : candidate.replaceSort catalog = (next, .ok true)) :
    ∃ changed, next.top = .aggregate grouping presorted changed := by
  obtain ⟨_, below, sorted, redirected⟩ := replaceSort_redirected ran
  cases top.symm.trans sorted
  generalize next.top = after at redirected
  cases redirected with
  | @aggregate _ changed _ _ inputs => exact ⟨changed, rfl⟩

/-- When a sort over an aggregation is taken away, the groups come in the order that it asked for
exactly if this order is compatible with the grouping; and the sort would have been taken away with
any other grouping as well. -/
theorem sort_over_groups_iff
    (top : candidate.top = .sort spec (.aggregate grouping presorted input))
    (ran : candidate.replaceSort catalog = (next, .ok true)) :
    (next.top.GroupsOrdered spec ↔ spec.Compatible grouping.groupBy) ∧
      ∀ other, ((candidate.sortedGroups spec presorted input other).replaceSort catalog).2 =
        .ok true := by
  obtain ⟨changed, left⟩ := replaceSort_keeps_grouping top ran
  refine ⟨left ▸ JoinTree.groupsOrdered_iff, fun other => ?_⟩
  obtain ⟨outcome, each⟩ := candidate.replaceSort_sortedGroups catalog spec presorted input
  have itself : candidate.sortedGroups spec presorted input grouping = candidate := by
    rw [sortedGroups, ← top]
  rw [each, ← each grouping, itself, ran]

open Planner (cityCatalog perCity)

theorem sort_over_groups_by_city :
    ∃ next, (citiesPresorted perCity.groupBy).replaceSort cityCatalog = (next, .ok true) ∧
      next.top.GroupsOrdered perCity.groupBy := by
  have ran : ∃ next, (citiesPresorted perCity.groupBy).replaceSort cityCatalog =
      (next, .ok true) := ⟨_, rfl⟩
  obtain ⟨next, ran⟩ := ran
  exact ⟨next, ran, (sort_over_groups_iff rfl ran).1.mpr (by decide)⟩

/-- The candidate is the one that presorting leads to, the number of its cost apart. A sort by age
is then taken away from groups that come by city. -/
theorem sort_over_groups_lost_by_age :
    (∀ next, (citiesReady byAge).presortInput cityCatalog = (next, .ok true) →
      next.forgetCost = (citiesPresorted byAge).forgetCost) ∧
    ¬ byAge.items <+: perCity.groupBy.items ∧
    ∃ next, (citiesPresorted byAge).replaceSort cityCatalog = (next, .ok true) ∧
      ¬ next.top.GroupsOrdered byAge := by
  have ran : ∃ next, (citiesPresorted byAge).replaceSort cityCatalog = (next, .ok true) := ⟨_, rfl⟩
  obtain ⟨next, ran⟩ := ran
  obtain ⟨changed, left⟩ := replaceSort_keeps_grouping rfl ran
  refine ⟨fun _ => presortInput_citiesReady_forgetCost, by decide, next, ran, ?_⟩
  rw [left, JoinTree.groupsOrdered_iff]
  decide

end Candidate

end ExtentPlanner
