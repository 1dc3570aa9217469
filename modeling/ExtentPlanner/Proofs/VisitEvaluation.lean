import ExtentPlanner.Proofs.BestIndex
import ExtentPlanner.Proofs.ConditionUses
import ExtentPlanner.Proofs.TypeNarrowing
import ExtentPlanner.Visit.Evaluation

/-! What the evaluation of a visit does to the conditions it was given. A condition that a lookup
takes is noted beside the rest, and an assertion is dropped only if it is implied; nothing else is
lost. The planner may later have the visit deliver an order instead, and the noted condition is
then evaluated like the others. -/
namespace ExtentPlanner

theorem takeFirst?_some {α : Type} {give? : Condition → Option α} {conditions : List Condition}
    {result : Taken α} (taken : takeFirst? give? conditions = some result) :
    give? result.condition = some result.found ∧
      conditions.Perm (result.rest ++ [result.condition]) := by
  induction conditions generalizing result with
  | nil => cases taken
  | cons condition rest ih =>
    rw [takeFirst?] at taken
    split at taken
    · rename_i given
      cases taken
      exact ⟨given, (List.perm_append_singleton _ _).symm⟩
    · obtain ⟨later, found, rfl⟩ := Option.map_eq_some_iff.mp taken
      obtain ⟨given, parts⟩ := ih found
      exact ⟨given, parts.cons condition⟩

theorem takeFirst?_of_none {α : Type} {give? : Condition → Option α} {conditions : List Condition}
    (nothing : ∀ condition ∈ conditions, give? condition = none) :
    takeFirst? give? conditions = none := by
  induction conditions with
  | nil => rfl
  | cons condition rest ih =>
    obtain ⟨here, others⟩ := List.forall_mem_cons.mp nothing
    rw [takeFirst?, here]
    dsimp only
    rw [ih others, Option.map_none]

theorem rel_or {α β : Type} {related : α → β → Prop} {first second : Option α}
    {other another : Option β} (front : Option.Rel related first other)
    (back : Option.Rel related second another) :
    Option.Rel related (first.or second) (other.or another) := by
  cases front with
  | some same => exact .some same
  | none => exact back

namespace Visit

variable {visit : Visit} {catalog : Catalog}

/-- Nothing is known about the visit but its conditions and a hint. -/
structure Unevaluated (visit : Visit) : Prop where
  replaced : visit.replaced? = none
  reference : visit.reference? = none
  identity : visit.identity? = none
  ordered : visit.orderIndex? = none
  best : visit.bestIndex? = none

/-- The visit still has the `given` conditions, up to implied assertions. -/
def Conserves (hierarchy : Hierarchy) (given : List Condition) (visit : Visit) : Prop :=
  ∃ dropped, given.Perm (visit.allConditions ++ dropped) ∧
    ∀ condition ∈ dropped, (visit.declared hierarchy).Implied visit.conditions condition

/-- The visit is ready to take an access path for the `given` conditions. -/
structure Prepared (catalog : Catalog) (given : List Condition) (visit : Visit) : Prop where
  lookups : visit.LookupsFit
  scans : visit.ScansFit catalog
  conserved : visit.Conserves catalog.hierarchy given

private theorem conserves_all (hierarchy : Hierarchy)
    (all : given.Perm visit.allConditions) : visit.Conserves hierarchy given :=
  ⟨[], by simpa using all, by simp⟩

theorem takeReference?_some (taken : visit.takeReference? = some result) :
    result.condition.referenceLookup? visit.extent = some result.found ∧
      visit.conditions.Perm (result.rest ++ [result.condition]) :=
  takeFirst?_some taken

theorem takeIdentity?_some (taken : visit.takeIdentity? = some result) :
    result.condition.identityLookup? visit.extent = some result.found ∧
      visit.conditions.Perm (result.rest ++ [result.condition]) := by
  have ofKind : ∀ kind, takeFirst? (·.identityLookupOf? visit.extent kind) visit.conditions =
      some result → result.condition.identityLookup? visit.extent = some result.found ∧
        visit.conditions.Perm (result.rest ++ [result.condition]) := by
    intro kind taken
    obtain ⟨given, parts⟩ := takeFirst?_some taken
    exact ⟨(Option.filter_eq_some_iff.mp given).1, parts⟩
  rcases Option.or_eq_some_iff.mp taken with first | ⟨_, second⟩
  · exact ofKind .number first
  · exact ofKind .id second

/-! ## What evaluation does -/

theorem columnComparison?_of_assertedType? {extent : Nat} {condition : Condition}
    (asserts : condition.assertedType? extent = some target) :
    condition.columnComparison? extent = none := by
  cases condition with
  | isType object asserted => rfl
  | truth | compare | and | or | not => cases asserts

theorem comparisons_simplifyAssertions (visit : Visit) (hierarchy : Hierarchy) :
    (visit.simplifyAssertions hierarchy).comparisons = visit.comparisons :=
  ((visit.declared hierarchy).dropImplied_thins visit.conditions).filterMap_eq
    fun _ _ => columnComparison?_of_assertedType?

/-- What the evaluation of a visit comes to: a hint leaves it as it is, a condition that gives a
lookup is taken out, or implied assertions are dropped and an index is chosen. -/
inductive FindsAccess (catalog : Catalog) (visit : Visit) : Visit → Prop where
  | hinted (hinted : visit.hintedIndex?.isSome = true) :
    FindsAccess catalog visit { visit with scanIndex? := catalog.scanIndex? visit.typeName }
  | reference (unhinted : visit.hintedIndex? = none) (found : visit.takeReference? = some taken) :
    FindsAccess catalog visit { visit with
      conditions := taken.rest
      reference? := some taken.found
      replaced? := some taken.condition
      scanIndex? := catalog.scanIndex? visit.typeName }
  | identity (unhinted : visit.hintedIndex? = none) (noReference : visit.takeReference? = none)
    (found : visit.takeIdentity? = some taken) :
    FindsAccess catalog visit { visit with
      conditions := taken.rest
      identity? := some taken.found
      replaced? := some taken.condition
      scanIndex? := catalog.scanIndex? visit.typeName }
  | scan (unhinted : visit.hintedIndex? = none) (noReference : visit.takeReference? = none)
    (noIdentity : visit.takeIdentity? = none) :
    FindsAccess catalog visit { visit with
      conditions := (visit.declared catalog.hierarchy).dropImplied visit.conditions
      bestIndex? :=
        ExtentPlanner.bestIndex? visit.comparisons (catalog.indexesFor visit.typeName)
      scanIndex? := catalog.scanIndex? visit.typeName
      satisfiable := visit.satisfiable &&
        !visit.conditions.any (visit.declared catalog.hierarchy).excludes }

/-- The scan index is set before lookups are sought, which do not read it. -/
theorem findsAccess_of_evaluate (ran : visit.evaluate catalog = .ok result) :
    catalog.hierarchy.contains visit.typeName = true ∧ visit.FindsAccess catalog result := by
  rw [evaluate] at ran
  split at ran
  swap
  · cases ran
  rename_i known
  cases ran
  refine ⟨known, ?_⟩
  unfold chooseAccess
  split
  · rename_i hinted
    exact .hinted hinted
  · rename_i unhinted
    have unhinted : visit.hintedIndex? = none := Option.not_isSome_iff_eq_none.mp unhinted
    split
    · rename_i found
      exact .reference unhinted found
    · rename_i noReference
      split
      · rename_i found
        exact .identity unhinted noReference found
      · rename_i noIdentity
        rw [chooseIndex, comparisons_simplifyAssertions]
        exact .scan unhinted noReference noIdentity

/-- A visit that was given conditions and perhaps a hint is ready once it has been evaluated. -/
theorem prepared_of_evaluate (unevaluated : visit.Unevaluated)
    (distinct : catalog.hierarchy.Distinct)
    (hinted : ∀ index, visit.hintedIndex? = some index →
      catalog.canScan index visit.typeName = true)
    (ran : visit.evaluate catalog = .ok result) : result.Prepared catalog visit.conditions := by
  obtain ⟨noReplaced, noReference, noIdentity, noOrder, noBest⟩ := unevaluated
  have whole : ∀ index, catalog.scanIndex? visit.typeName = some index →
      catalog.canScan index visit.typeName = true := fun _ => Catalog.canScan_of_scanIndex?
  cases (findsAccess_of_evaluate ran).2 with
  | hinted =>
    exact ⟨⟨by simp [noReference], by simp [noIdentity], fun _ _ => noReplaced⟩,
      ⟨hinted, by simp [noOrder], by simp [noBest], whole⟩,
      conserves_all _ (by simp [allConditions, noReplaced])⟩
  | reference _ found =>
    obtain ⟨given, parts⟩ := takeReference?_some found
    refine ⟨⟨?_, by simp [noIdentity], by simp⟩,
      ⟨hinted, by simp [noOrder], by simp [noBest], whole⟩, conserves_all _ parts⟩
    rintro operand ⟨⟩
    exact ⟨_, rfl, given⟩
  | identity _ _ found =>
    obtain ⟨given, parts⟩ := takeIdentity?_some found
    refine ⟨⟨by simp [noReference], ?_, by simp⟩,
      ⟨hinted, by simp [noOrder], by simp [noBest], whole⟩, conserves_all _ parts⟩
    intro kind key same
    exact ⟨_, rfl, given.trans same⟩
  | scan =>
    obtain ⟨dropped, parts, each⟩ :=
      (visit.declared catalog.hierarchy).dropImplied_parts distinct visit.conditions
    refine ⟨⟨by simp [noReference], by simp [noIdentity], fun _ _ => noReplaced⟩,
      ⟨hinted, by simp [noOrder], ?_, whole⟩, dropped, ?_, each⟩
    · exact fun _ chosen => Catalog.canScan_of_mem_indexesFor (mem_of_bestIndex? chosen)
    · simpa [allConditions, noReplaced, declared] using parts

/-- Evaluation does not touch what others have settled about a visit. -/
theorem evaluate_keeps (ran : visit.evaluate catalog = .ok result) :
    result.fresh = visit.fresh ∧ result.hintedIndex? = visit.hintedIndex? ∧
      result.orderIndex? = visit.orderIndex? ∧ result.innermost = visit.innermost := by
  cases (findsAccess_of_evaluate ran).2 <;> exact ⟨rfl, rfl, rfl, rfl⟩

/-- A visit that could be evaluated is of a registered class, and knows how to scan it. -/
theorem evaluate_scans (ran : visit.evaluate catalog = .ok result) :
    catalog.hierarchy.contains visit.typeName = true ∧
      result.scanIndex? = catalog.scanIndex? visit.typeName := by
  obtain ⟨known, found⟩ := findsAccess_of_evaluate ran
  refine ⟨known, ?_⟩
  cases found <;> rfl

theorem Prepared.setOrderIndex (prepared : visit.Prepared catalog given)
    (ordered : ∀ use, use? = some use → catalog.canScan use.index visit.typeName = true) :
    (visit.setOrderIndex use?).Prepared catalog given :=
  ⟨⟨prepared.lookups.reference, prepared.lookups.identity, prepared.lookups.neither⟩,
    ⟨prepared.scans.hinted, ordered, prepared.scans.best, prepared.scans.whole⟩,
    prepared.conserved⟩

theorem Prepared.setInnermost (prepared : visit.Prepared catalog given) (innermost : Bool) :
    (visit.setInnermost innermost).Prepared catalog given :=
  ⟨⟨prepared.lookups.reference, prepared.lookups.identity, prepared.lookups.neither⟩,
    ⟨prepared.scans.hinted, prepared.scans.ordered, prepared.scans.best, prepared.scans.whole⟩,
    prepared.conserved⟩

/-- The visit is of a registered class, and neither a hint nor a condition that gives a lookup tells
how to read it. -/
structure NeedsScan (catalog : Catalog) (visit : Visit) : Prop where
  known : catalog.hierarchy.contains visit.typeName = true
  unhinted : visit.hintedIndex? = none
  noReference : ∀ condition ∈ visit.conditions, condition.referenceLookup? visit.extent = none
  noIdentity : ∀ condition ∈ visit.conditions, condition.identityLookup? visit.extent = none

theorem NeedsScan.of_subset {other : Visit} (needsScan : visit.NeedsScan catalog)
    (same : other.fresh = visit.fresh) (hint : other.hintedIndex? = visit.hintedIndex?)
    (subset : other.conditions ⊆ visit.conditions) : other.NeedsScan catalog := by
  have extent : other.extent = visit.extent := congrArg (·.extent) same
  have typeName : other.typeName = visit.typeName := congrArg (·.typeName) same
  exact ⟨typeName ▸ needsScan.known, hint.trans needsScan.unhinted,
    fun condition member => extent ▸ needsScan.noReference condition (subset member),
    fun condition member => extent ▸ needsScan.noIdentity condition (subset member)⟩

/-- The evaluation of a visit that needs a scan drops implied assertions, notes an impossible one
and chooses an index. -/
theorem NeedsScan.evaluate (needsScan : visit.NeedsScan catalog) :
    visit.evaluate catalog = .ok { visit with
      conditions := (visit.declared catalog.hierarchy).dropImplied visit.conditions
      bestIndex? :=
        ExtentPlanner.bestIndex? visit.comparisons (catalog.indexesFor visit.typeName)
      scanIndex? := catalog.scanIndex? visit.typeName
      satisfiable := visit.satisfiable &&
        !visit.conditions.any (visit.declared catalog.hierarchy).excludes } := by
  have noReference : visit.takeReference? = none := takeFirst?_of_none needsScan.noReference
  have ofKind : ∀ kind, takeFirst? (·.identityLookupOf? visit.extent kind) visit.conditions =
      none := by
    intro kind
    refine takeFirst?_of_none fun condition member => ?_
    rw [Condition.identityLookupOf?, needsScan.noIdentity condition member, Option.filter_none]
  have noIdentity : visit.takeIdentity? = none := by
    rw [takeIdentity?, ofKind, ofKind, Option.or_none]
  obtain ⟨result, ran⟩ : ∃ result, visit.evaluate catalog = .ok result := by
    rw [Visit.evaluate, if_pos needsScan.known]
    exact ⟨_, rfl⟩
  rw [ran]
  cases (findsAccess_of_evaluate ran).2 with
  | hinted hinted =>
    rw [needsScan.unhinted] at hinted
    cases hinted
  | reference _ found => cases noReference.symm.trans found
  | identity _ _ found => cases noIdentity.symm.trans found
  | scan => rfl

/-- The access path of a ready visit uses each of the conditions it was given once, except for
those that the declared class or the filter of the path implies. -/
theorem Prepared.accounted (prepared : visit.Prepared catalog given)
    (each : ∀ condition ∈ given, condition.IsConjunct)
    (ran : visit.access generator? = .ok path) :
    path.extent = visit.extent ∧ ∃ (own : List Use) (served dropped : Multiset Condition),
      (given : Multiset Condition) = served + dropped ∧
      path.uses = own ++ path.guards visit.typeName ∧ Multiset.Rel Use.Serves own served ∧
      ∀ condition ∈ dropped, (visit.declared catalog.hierarchy).Implied
        path.filter.filterConjuncts condition := by
  obtain ⟨dropped, parts, implied⟩ := prepared.conserved
  have eachLeft : ∀ condition ∈ visit.allConditions, condition.IsConjunct := fun condition member =>
    each condition (parts.mem_iff.mpr (List.mem_append_left _ member))
  obtain ⟨extent, ⟨own, same, serves⟩, filtered⟩ := access_accounted prepared.lookups eachLeft ran
  refine ⟨extent, own, visit.allConditions, dropped, ?_, same, serves, fun condition member => ?_⟩
  · rw [Multiset.coe_add]
    exact Multiset.coe_eq_coe.mpr parts
  · obtain ⟨target, asserts, byDeclared | ⟨other, kept, narrower, narrows, lower⟩⟩ :=
      implied condition (Multiset.mem_coe.mp member)
    · exact ⟨target, asserts, .inl byDeclared⟩
    · have remains := filtered other kept (columnComparison?_of_assertedType? narrows)
      exact ⟨target, asserts, .inr ⟨other, remains, narrower, narrows, lower⟩⟩

end Visit

end ExtentPlanner
