import ExtentPlanner.Proofs.DeclaredNames
import ExtentPlanner.Proofs.ExtentMembers
import ExtentPlanner.Proofs.TreeShape
import ExtentPlanner.Proofs.VisitEvaluation

/-! The sides on which comparisons have their operands. A condition is turned if some of its
comparisons, at any depth, have exchanged operands and the mirrored operator. Planning asks the same
of both: they read the same extents and give the same lookups, index bounds and truth values. So a
visit whose conditions are turned finds the same access path with the same key and the same bounds,
and only the conditions that are left for its filter are turned. -/
namespace ExtentPlanner

/-! ## Comparisons of literals -/

theorem Scalar.compareBytes_swap (first second : List UInt8) :
    compareBytes second first = (compareBytes first second).swap := by
  fun_induction compareBytes first second with
  | case1 | case2 | case3 => rfl
  | case4 first firsts second seconds ih =>
    have bytes : compare second first = (compare first second).swap := Std.OrientedCmp.eq_swap
    rw [compareBytes, ih, bytes, Ordering.swap_then]

theorem Binary64.compare?_swap (first second : Binary64) :
    second.compare? first = (first.compare? second).map Ordering.swap := by
  have keys : compare second.orderKey first.orderKey =
      (compare first.orderKey second.orderKey).swap := Std.OrientedCmp.eq_swap
  rw [compare?, compare?, Bool.or_comm, keys]
  split <;> rfl

/-- Exchanging two literals turns their order around; it does not make them comparable. -/
theorem Scalar.compare?_swap (first second : Scalar) :
    second.compare? first = (first.compare? second).map Ordering.swap := by
  have oriented : ∀ {α : Type} [Ord α] [Std.OrientedOrd α] (a b : α),
      some (compare b a) = (some (compare a b)).map Ordering.swap :=
    fun _ _ => congrArg some Std.OrientedCmp.eq_swap
  cases first <;> cases second <;> try rfl
  case bool.bool | int.int | uint.uint | int.uint | uint.int | text.text => exact oriented _ _
  case float.float | float.int | int.float | float.uint | uint.float =>
    exact Binary64.compare?_swap _ _
  case binary.binary => exact congrArg some (compareBytes_swap _ _)
  case object.object first second =>
    by_cases same : first = second
    · simp [compare?, same]
    · simp [compare?, same, Ne.symm same]

namespace Operator

variable {operator mirrored : Operator}

theorem reverse_ok_iff : operator.reverse = .ok mirrored ↔ operator.reverse? = some mirrored := by
  rw [reverse]
  cases operator.reverse? <;> simp

theorem holds?_swap (reversed : operator.reverse? = some mirrored) (order : Ordering) :
    mirrored.holds? order.swap = operator.holds? order := by
  cases operator <;> cases reversed <;> cases order <;> rfl

theorem isRange_of_reverse? (reversed : operator.reverse? = some mirrored) :
    mirrored.isRange = operator.isRange := by
  cases operator <;> cases reversed <;> rfl

/-- The mirrored operator has the same truth value of the exchanged literals. -/
theorem evaluate?_swap (reversed : operator.reverse? = some mirrored) (left right : Scalar) :
    mirrored.evaluate? right left = operator.evaluate? left right := by
  have ordered : ((right.compare? left).bind fun order =>
      (mirrored.holds? order).map Truth.ofBool) =
      (left.compare? right).bind fun order => (operator.holds? order).map Truth.ofBool := by
    rw [Scalar.compare?_swap left right]
    cases left.compare? right with
    | none => rfl
    | some order => rw [Option.map_some, Option.bind_some, Option.bind_some, holds?_swap reversed]
  unfold evaluate?
  rw [Bool.or_comm right.isNull, Bool.and_comm right.isNull]
  split
  · cases operator <;> cases reversed <;> rfl
  · cases operator <;> cases reversed <;> exact ordered

end Operator

/-! ## Turned conditions -/

namespace Condition

/-- Some comparisons have exchanged operands and the mirrored operator; the rest is the same. -/
inductive Turned : Condition → Condition → Prop where
  | same (condition : Condition) : Turned condition condition
  | turn {operator mirrored : Operator} (reversed : operator.reverse? = some mirrored)
    (left right : Operand) : Turned (compare operator left right) (compare mirrored right left)
  | and (left : Turned first other) (right : Turned second another) :
    Turned (and first second) (and other another)
  | or (left : Turned first other) (right : Turned second another) :
    Turned (or first second) (or other another)
  | not (inner : Turned first other) : Turned (not first) (not other)

/-- Everything that planning asks of a condition has the same answer for both. -/
structure AnsweredAlike (condition other : Condition) : Prop where
  extentSet : Alike (fun set same => same = set) condition.extentSet other.extentSet
  nullTestedSet : other.nullTestedSet = condition.nullTestedSet
  referenceLookup? : ∀ extent, other.referenceLookup? extent = condition.referenceLookup? extent
  identityLookup? : ∀ extent, other.identityLookup? extent = condition.identityLookup? extent
  columnComparison? : ∀ extent,
    other.columnComparison? extent = condition.columnComparison? extent
  assertedTarget? : ∀ extent, other.assertedTarget? extent = condition.assertedTarget? extent
  patternParameters : other.patternParameters = condition.patternParameters

variable {condition other : Condition} {operator mirrored : Operator}

/-- The extents are read in another order. -/
theorem Turned.extents (turned : condition.Turned other) :
    condition.extents.Perm other.extents := by
  induction turned with
  | same => exact .refl _
  | turn _ left right => exact List.perm_append_comm
  | and _ _ left right | or _ _ left right => exact left.append right
  | not _ inner => exact inner

private theorem nullTestedOperands_comm (left right : Operand) :
    nullTestedOperands right left = nullTestedOperands left right := by
  have none_of_null : ∀ operand : Operand, operand.isNull = true → operand.extents = [] := by
    intro operand null
    cases operand with
    | literal => rfl
    | parameter | path | object | objectNumber | objectId => cases null
  rw [nullTestedOperands, nullTestedOperands]
  cases ofLeft : left.isNull <;> cases ofRight : right.isNull
  · rfl
  · rfl
  · rfl
  · simp [none_of_null left ofLeft, none_of_null right ofRight]

theorem Turned.nullTested (turned : condition.Turned other) :
    other.nullTested = condition.nullTested := by
  induction turned with
  | same => rfl
  | @turn operator mirrored reversed left right =>
    cases operator <;> cases reversed <;> first | rfl | exact nullTestedOperands_comm left right
  | and _ _ left right | or _ _ left right => exact congrArg₂ _ left right
  | not _ inner => exact inner

/-- Pattern operators are never turned. -/
theorem Turned.patternParameters (turned : condition.Turned other) :
    other.patternParameters = condition.patternParameters := by
  induction turned with
  | same => rfl
  | @turn operator mirrored reversed left right =>
    cases operator <;> cases reversed <;> rfl
  | and _ _ left right | or _ _ left right => exact congrArg₂ _ left right
  | not _ inner => exact inner

/-- An operand on the other side of the extent's object reads another extent. -/
private theorem referenceLookup?_comm (extent : Nat) (left right : Operand) :
    (compare .equal right left).referenceLookup? extent =
      (compare .equal left right).referenceLookup? extent := by
  rw [referenceLookup?, referenceLookup?]
  by_cases onLeft : left = .object extent <;> by_cases onRight : right = .object extent <;>
    simp [onLeft, onRight]

private theorem reads_of_identityOf? {extent : Nat} {operand : Operand} {kind : IdentityKind}
    (identity : identityOf? extent operand = some kind) : operand.reads extent = true := by
  cases operand with
  | objectNumber owner | objectId owner =>
    rw [identityOf?] at identity
    split at identity
    · rename_i own
      simp [Operand.reads, Operand.extent?, own]
    · cases identity
  | literal | parameter | path | object => cases identity

private theorem identityLookup?_comm (extent : Nat) (left right : Operand) :
    (compare .equal right left).identityLookup? extent =
      (compare .equal left right).identityLookup? extent := by
  rw [identityLookup?, identityLookup?]
  cases onLeft : identityOf? extent left with
  | none => cases identityOf? extent right <;> rfl
  | some kind =>
    cases onRight : identityOf? extent right with
    | none => rfl
    | some other =>
      -- both sides read the extent, so neither can be looked up
      simp [Option.filter_some, reads_of_identityOf? onLeft, reads_of_identityOf? onRight]

private theorem columnBound?_of_reads {extent : Nat} {other : Operand}
    (reads : other.reads extent = true) (side : Operand) (operator? : Option Operator) :
    columnBound? extent side operator? other = none := by
  unfold columnBound?
  split
  · rw [if_pos reads]
  · rfl

private theorem columnBound?_of_no_column {extent : Nat} {side : Operand}
    (unnamed : side.column? extent = none) (operator? : Option Operator) (other : Operand) :
    columnBound? extent side operator? other = none := by
  unfold columnBound?
  rw [unnamed]

/-- At most one side can bound a column, because the other must not read the extent. -/
private theorem columnComparison?_swap (reversed : operator.reverse? = some mirrored)
    (extent : Nat) (left right : Operand) :
    (compare mirrored right left).columnComparison? extent =
      (compare operator left right).columnComparison? extent := by
  rw [columnComparison?, columnComparison?, Operator.isRange_of_reverse? reversed, reversed,
    Operator.reverse?_reverse? reversed]
  congr 1
  cases onLeft : left.column? extent with
  | none => rw [columnBound?_of_no_column onLeft, Option.or_none, Option.none_or]
  | some column =>
    rw [columnBound?_of_reads (Operand.reads_of_column? onLeft), Option.none_or, Option.or_none]

theorem Turned.referenceLookup? (turned : condition.Turned other) (extent : Nat) :
    other.referenceLookup? extent = condition.referenceLookup? extent := by
  cases turned with
  | @turn operator mirrored reversed left right =>
    cases operator <;> cases reversed <;> first | rfl | exact referenceLookup?_comm extent left right
  | same | and | or | not => rfl

theorem Turned.identityLookup? (turned : condition.Turned other) (extent : Nat) :
    other.identityLookup? extent = condition.identityLookup? extent := by
  cases turned with
  | @turn operator mirrored reversed left right =>
    cases operator <;> cases reversed <;> first | rfl | exact identityLookup?_comm extent left right
  | same | and | or | not => rfl

theorem Turned.columnComparison? (turned : condition.Turned other) (extent : Nat) :
    other.columnComparison? extent = condition.columnComparison? extent := by
  cases turned with
  | turn reversed left right => exact columnComparison?_swap reversed extent left right
  | same | and | or | not => rfl

theorem Turned.assertedTarget? (turned : condition.Turned other) (extent : Nat) :
    other.assertedTarget? extent = condition.assertedTarget? extent := by
  cases turned <;> rfl

theorem Turned.answeredAlike (turned : condition.Turned other) : condition.AnsweredAlike other where
  extentSet := by
    refine .of_succeedsIff (ExtentSet.ofList_succeedsIff condition.extents)
      ((ExtentSet.ofList_succeedsIff other.extents).imp ?_ fun _ _ => id) fun set same ran ranToo => ?_
    · simp only [turned.extents.mem_iff]
    · refine ExtentSet.eq_of_includes fun extent => ?_
      rw [Bool.eq_iff_iff, ExtentSet.ofList_iff.mp ran, ExtentSet.ofList_iff.mp ranToo,
        turned.extents.mem_iff]
  nullTestedSet := by rw [nullTestedSet, nullTestedSet, turned.nullTested]
  referenceLookup? := turned.referenceLookup?
  identityLookup? := turned.identityLookup?
  columnComparison? := turned.columnComparison?
  assertedTarget? := turned.assertedTarget?
  patternParameters := turned.patternParameters

theorem Turned.assertedType? (turned : condition.Turned other) (extent : Nat) :
    other.assertedType? extent = condition.assertedType? extent := by
  rw [Condition.assertedType?, Condition.assertedType?, turned.assertedTarget?]

theorem Turned.conjunction {conditions others : List Condition}
    (turned : List.Forall₂ Turned conditions others) :
    (conjunction conditions).Turned (conjunction others) := by
  cases turned with
  | nil => exact .same _
  | cons first rest =>
    exact List.rel_foldl (fun _ _ left _ _ right => .and left right) first rest

end Condition

/-! ## Searches in turned conditions -/

variable {conditions others : List Condition}

open Condition (Turned)

/-- The same was found, in conditions that are turned. -/
structure Taken.Turned {α : Type} (taken other : Taken α) : Prop where
  found : other.found = taken.found
  condition : taken.condition.Turned other.condition
  rest : List.Forall₂ Condition.Turned taken.rest other.rest

theorem takeFirst?_turned {α : Type} {give? : Condition → Option α}
    (silent : ∀ {condition other}, Turned condition other → give? other = give? condition)
    (turned : List.Forall₂ Turned conditions others) :
    Option.Rel Taken.Turned (takeFirst? give? conditions) (takeFirst? give? others) := by
  induction turned with
  | nil => exact .none
  | @cons condition other rest otherRest first later ih =>
    rw [takeFirst?, takeFirst?, silent first]
    cases give? condition with
    | some found => exact .some ⟨rfl, first, later⟩
    | none =>
      generalize takeFirst? give? rest = inRest at ih
      generalize takeFirst? give? otherRest = inOther at ih
      cases ih with
      | none => exact .none
      | some taken => exact .some ⟨taken.found, taken.condition, .cons first taken.rest⟩

theorem filterMap_turned {α : Type} {give? : Condition → Option α}
    (silent : ∀ {condition other}, Turned condition other → give? other = give? condition)
    (turned : List.Forall₂ Turned conditions others) :
    others.filterMap give? = conditions.filterMap give? := by
  have given := JoinTree.map_eq_of_forall₂ (turned.imp fun _ _ => silent)
  simpa only [List.filterMap_map, Function.id_comp] using congrArg (List.filterMap id) given

theorem any_turned {holds : Condition → Bool}
    (silent : ∀ {condition other}, Turned condition other → holds other = holds condition)
    (turned : List.Forall₂ Turned conditions others) : others.any holds = conditions.any holds := by
  have held := JoinTree.map_eq_of_forall₂ (turned.imp fun _ _ => silent)
  simpa only [List.any_map, Function.id_comp] using congrArg (List.any · id) held

theorem splitBounds_turned (extent : Nat) (column : String)
    (turned : List.Forall₂ Turned conditions others) :
    (splitBounds extent column others).1 = (splitBounds extent column conditions).1 ∧
      List.Forall₂ Turned (splitBounds extent column conditions).2
        (splitBounds extent column others).2 := by
  induction turned with
  | nil => exact ⟨rfl, .nil⟩
  | @cons condition other rest otherRest first _ ih =>
    obtain ⟨points, left⟩ := ih
    rw [splitBounds, splitBounds, first.columnComparison?]
    dsimp only
    cases (condition.columnComparison? extent).filter (·.column == column) with
    | some comparison =>
      dsimp only
      rw [points]
      exact ⟨rfl, left⟩
    | none => exact ⟨points, .cons first left⟩

theorem columnRanges_turned (extent bounded : Nat) (columns : List IndexColumn)
    (turned : List.Forall₂ Turned conditions others) :
    (columnRanges extent bounded columns others).1 =
        (columnRanges extent bounded columns conditions).1 ∧
      List.Forall₂ Turned (columnRanges extent bounded columns conditions).2
        (columnRanges extent bounded columns others).2 := by
  induction columns generalizing bounded conditions others with
  | nil => exact ⟨by simp only [columnRanges], by simpa only [columnRanges] using turned⟩
  | cons column rest ih =>
    cases bounded with
    | zero =>
      obtain ⟨ranges, left⟩ := ih 0 turned
      rw [columnRanges, columnRanges]
      dsimp only
      rw [ranges]
      exact ⟨rfl, left⟩
    | succ bounded =>
      obtain ⟨points, others⟩ := splitBounds_turned extent column.path turned
      obtain ⟨ranges, left⟩ := ih bounded others
      rw [columnRanges, columnRanges]
      dsimp only
      rw [points, ranges]
      exact ⟨rfl, left⟩

namespace DeclaredExtent

variable (declared : DeclaredExtent)

theorem excludes_turned (turned : Turned condition other) :
    declared.excludes other = declared.excludes condition := by
  rw [excludes, excludes, turned.assertedType?]

theorem dropImplied_turned (turned : List.Forall₂ Turned conditions others) :
    List.Forall₂ Turned (declared.dropImplied conditions) (declared.dropImplied others) := by
  have narrowings : declared.narrowings others = declared.narrowings conditions := by
    rw [DeclaredExtent.narrowings, DeclaredExtent.narrowings,
      filterMap_turned (fun first => first.assertedType? _) turned]
  rw [dropImplied, dropImplied, narrowings]
  -- the narrowings are those of the whole list, while the passed ones grow along it
  generalize declared.narrowings conditions = all
  generalize [] = earlier
  clear narrowings
  induction turned generalizing earlier with
  | nil => exact .nil
  | @cons condition other rest otherRest first _ ih =>
    rw [dropImpliedFrom, dropImpliedFrom, first.assertedType?]
    cases condition.assertedType? declared.extent with
    | none => exact .cons first (ih earlier)
    | some target =>
      dsimp only
      split
      · exact ih earlier
      · split
        · split
          · exact ih _
          · exact .cons first (ih _)
        · exact .cons first (ih earlier)

end DeclaredExtent

/-! ## Access paths -/

/-- The access paths differ only in the turned conditions of their filters and in the generated code
for these. -/
inductive Access.Turned : Access → Access → Prop where
  | indexScan (extent : Nat) (index : Index) (direction : Direction) (ranges : List ColumnRange)
    (filters : Condition.Turned own other) (innermost : Bool) :
    Turned (.indexScan extent index direction ranges own innermost)
      (.indexScan extent index direction ranges other innermost)
  | fullScan (extent : Nat) (index : Index) (filters : Condition.Turned own other)
    (code otherCode : String) (innermost : Bool) :
    Turned (.fullScan extent index own code innermost)
      (.fullScan extent index other otherCode innermost)
  | reference (extent : Nat) (key : Operand) (filters : Condition.Turned own other) :
    Turned (.reference extent key own) (.reference extent key other)
  | identity (extent : Nat) (kind : IdentityKind) (key : Operand)
    (filters : Condition.Turned own other) :
    Turned (.identity extent kind key own) (.identity extent kind key other)

/-- The generator can express a filter exactly if it can express the filter turned. -/
def FilterGenerator.TurnsFilters (generate : FilterGenerator) : Prop :=
  ∀ extent typeName filter other, Condition.Turned filter other →
    (generate extent typeName other).isSome = (generate extent typeName filter).isSome

namespace Visit

/-- The visits differ only in their conditions, which are turned. -/
structure Turned (visit other : Visit) : Prop where
  same : other = { visit with conditions := other.conditions, replaced? := other.replaced? }
  conditions : List.Forall₂ Condition.Turned visit.conditions other.conditions
  replaced : Option.Rel Condition.Turned visit.replaced? other.replaced?

variable {visit other : Visit}

theorem Turned.allConditions (turned : Turned visit other) :
    List.Forall₂ Condition.Turned visit.allConditions other.allConditions := by
  refine List.rel_append turned.conditions ?_
  have replaced := turned.replaced
  generalize visit.replaced? = own at replaced ⊢
  generalize other.replaced? = others at replaced ⊢
  cases replaced with
  | none => exact .nil
  | some same => exact .cons same .nil

theorem Turned.cost (turned : Turned visit other) : other.cost = visit.cost := by
  rw [turned.same]
  rfl

theorem takeReference?_turned (turned : Turned visit other) :
    Option.Rel Taken.Turned visit.takeReference? other.takeReference? := by
  rw [turned.same]
  exact takeFirst?_turned (fun first => first.referenceLookup? visit.extent) turned.conditions

theorem takeIdentity?_turned (turned : Turned visit other) :
    Option.Rel Taken.Turned visit.takeIdentity? other.takeIdentity? := by
  have ofKind : ∀ kind {condition other}, Condition.Turned condition other →
      other.identityLookupOf? visit.extent kind = condition.identityLookupOf? visit.extent kind := by
    intro kind condition other first
    rw [Condition.identityLookupOf?, Condition.identityLookupOf?, first.identityLookup?]
  rw [turned.same]
  exact rel_or (takeFirst?_turned (ofKind .number) turned.conditions)
    (takeFirst?_turned (ofKind .id) turned.conditions)

theorem Turned.comparisons (turned : Turned visit other) :
    other.comparisons = visit.comparisons := by
  rw [turned.same]
  exact filterMap_turned (fun first => first.columnComparison? visit.extent) turned.conditions

/-- The same index is chosen, and assertions are dropped from the same places. -/
theorem Turned.chooseIndex (turned : Turned visit other) (catalog : Catalog) :
    Turned ((visit.simplifyAssertions catalog.hierarchy).chooseIndex catalog)
      ((other.simplifyAssertions catalog.hierarchy).chooseIndex catalog) := by
  have declared : other.declared catalog.hierarchy = visit.declared catalog.hierarchy := by
    rw [turned.same]
    rfl
  have excluded := any_turned
    (fun first => (visit.declared catalog.hierarchy).excludes_turned first) turned.conditions
  refine ⟨?_, ?_, turned.replaced⟩
  · rw [Visit.chooseIndex, Visit.chooseIndex, comparisons_simplifyAssertions,
      comparisons_simplifyAssertions, turned.comparisons]
    simp only [simplifyAssertions, declared, excluded]
    rw [turned.same]
  · simp only [Visit.chooseIndex, simplifyAssertions, declared]
    exact (visit.declared catalog.hierarchy).dropImplied_turned turned.conditions

theorem Turned.chooseAccess (turned : Turned visit other) (catalog : Catalog) :
    Turned (visit.chooseAccess catalog) (other.chooseAccess catalog) := by
  have references := takeReference?_turned turned
  have identities := takeIdentity?_turned turned
  have hinted : other.hintedIndex? = visit.hintedIndex? := by rw [turned.same]
  rw [Visit.chooseAccess, Visit.chooseAccess, hinted]
  split
  · exact turned
  generalize visit.takeReference? = reference at references
  generalize other.takeReference? = otherReference at references
  cases references with
  | some taken =>
    obtain ⟨found, condition, rest⟩ := taken
    dsimp only
    rw [found]
    refine ⟨?_, rest, .some condition⟩
    rw [turned.same]
  | none =>
    generalize visit.takeIdentity? = identity at identities
    generalize other.takeIdentity? = otherIdentity at identities
    cases identities with
    | some taken =>
      obtain ⟨found, condition, rest⟩ := taken
      dsimp only
      rw [found]
      refine ⟨?_, rest, .some condition⟩
      rw [turned.same]
    | none =>
      exact turned.chooseIndex catalog

theorem Turned.evaluate_known (turned : Turned visit other) (catalog : Catalog)
    (known : catalog.hierarchy.contains visit.typeName = true) :
    ∃ found foundToo, visit.evaluate catalog = .ok found ∧
      other.evaluate catalog = .ok foundToo ∧ Turned found foundToo := by
  have scanned : Turned { visit with scanIndex? := catalog.scanIndex? visit.typeName }
      { other with scanIndex? := catalog.scanIndex? other.typeName } := by
    refine ⟨?_, turned.conditions, turned.replaced⟩
    rw [turned.same]
  have knownToo : catalog.hierarchy.contains other.typeName = true := by
    rw [turned.same]
    exact known
  refine ⟨_, _, ?_, ?_, scanned.chooseAccess catalog⟩
  · rw [Visit.evaluate, if_pos known]
  · rw [Visit.evaluate, if_pos knownToo]

theorem evaluate_unknown {catalog : Catalog}
    (unknown : catalog.hierarchy.contains visit.typeName = false) :
    visit.evaluate catalog = .error (.typeNotFound visit.typeName) := by
  rw [Visit.evaluate, if_neg (by rw [unknown]; exact Bool.false_ne_true)]

/-! ### What they read by -/

theorem guardedFilter_turned (visit : Visit) (index : Index)
    (turned : List.Forall₂ Condition.Turned conditions others) :
    (visit.guardedFilter index conditions).Turned (visit.guardedFilter index others) :=
  Condition.Turned.conjunction (List.rel_append turned
    (List.forall₂_same.mpr fun condition _ => .same condition))

theorem indexScan_turned (visit : Visit) (index : Index) (direction : Direction)
    (turned : List.Forall₂ Condition.Turned conditions others) :
    (visit.indexScan index direction conditions).Turned
      (visit.indexScan index direction others) := by
  have comparisons := filterMap_turned
    (fun first => first.columnComparison? visit.extent) turned
  rw [indexScan, indexScan, comparisons]
  obtain ⟨ranges, left⟩ := columnRanges_turned visit.extent
    (index.coverage (conditions.filterMap (·.columnComparison? visit.extent))).columns
    index.columns turned
  dsimp only
  rw [ranges]
  exact .indexScan _ _ _ _ (visit.guardedFilter_turned index left) _

variable {generator? : Option FilterGenerator}

/-- What a scan of the whole extent reads of a visit beside its conditions. -/
private theorem Turned.reads (turned : Turned visit other) :
    other.guardedFilter = visit.guardedFilter ∧ other.indexScan = visit.indexScan ∧
      other.extent = visit.extent ∧ other.typeName = visit.typeName ∧
      other.innermost = visit.innermost := by
  rw [turned.same]
  exact ⟨rfl, rfl, rfl, rfl, rfl⟩

theorem Turned.extentScan (turned : Turned visit other) (index : Index)
    (impartial : ∀ generate ∈ generator?, FilterGenerator.TurnsFilters generate) :
    (visit.extentScan index generator?).Turned (other.extentScan index generator?) := by
  have filters := visit.guardedFilter_turned index turned.conditions
  have scans := visit.indexScan_turned index .ascending turned.conditions
  have empty : other.conditions.isEmpty = visit.conditions.isEmpty := by
    rw [Bool.eq_iff_iff, List.isEmpty_iff_length_eq_zero, List.isEmpty_iff_length_eq_zero,
      turned.conditions.length_eq]
  have expressed : (generator?.bind fun generate =>
      generate visit.extent visit.typeName (visit.guardedFilter index other.conditions)).isSome =
      (generator?.bind fun generate =>
        generate visit.extent visit.typeName (visit.guardedFilter index visit.conditions)).isSome := by
    cases generator? with
    | none => rfl
    | some generate => exact impartial generate rfl _ _ _ _ filters
  obtain ⟨guardedFilter, indexScan, extent, typeName, innermost⟩ := turned.reads
  unfold Visit.extentScan
  rw [guardedFilter, indexScan, extent, typeName, innermost, empty]
  cases visit.conditions.isEmpty with
  | true => exact scans
  | false =>
    simp only [Bool.false_eq_true, if_false]
    generalize generator?.bind _ = own at expressed ⊢
    generalize generator?.bind _ = others at expressed ⊢
    cases own <;> cases others
    · exact scans
    · cases expressed
    · cases expressed
    · exact .fullScan _ _ filters _ _ _

theorem Turned.access (turned : Turned visit other)
    (impartial : ∀ generate ∈ generator?, FilterGenerator.TurnsFilters generate) :
    Alike Access.Turned (visit.access generator?) (other.access generator?) := by
  have allConditions := turned.allConditions
  have scans := fun index => turned.extentScan index impartial
  have conditions := turned.conditions
  have replaced := turned.same
  generalize other.conditions = turnedConditions at *
  generalize other.replaced? = turnedReplaced at *
  subst replaced
  unfold Visit.access
  dsimp only
  split
  · exact .succeed (visit.indexScan_turned _ _ allConditions)
  · exact .succeed (visit.indexScan_turned _ _ allConditions)
  · exact .succeed (.reference _ _ (.conjunction conditions))
  · exact .succeed (.identity _ _ _ (.conjunction conditions))
  · exact .succeed (visit.indexScan_turned _ _ conditions)
  · exact .succeed (scans _)
  · exact .fail _ _

end Visit

/-- The order of operands does not matter to planning. A comparison with a reversible operator and
the mirrored one with exchanged operands answer alike everything that planning asks of conditions,
and have the same truth value if both operands are literals. Hence visits that were given turned
conditions find the same access path with the same key at the same cost, and read by it within the
same bounds; if the class is not registered, both fail for that. -/
theorem operand_order_irrelevant :
    (∀ operator : Operator, operator.isReversible = true →
      ∃ mirrored, operator.reverse = .ok mirrored ∧
        (∀ left right, (Condition.compare operator left right).AnsweredAlike
          (.compare mirrored right left)) ∧
        ∀ left right, mirrored.evaluate? right left = operator.evaluate? left right) ∧
    ∀ (catalog : Catalog) (extent : Nat) (typeName : String) (conditions others : List Condition),
      List.Forall₂ Condition.Turned conditions others →
        (catalog.hierarchy.contains typeName = true →
          ∃ found turned,
            ((Visit.unplanned extent typeName).addConditions conditions).evaluate catalog =
              .ok found ∧
            ((Visit.unplanned extent typeName).addConditions others).evaluate catalog =
              .ok turned ∧
            found.Turned turned ∧ turned.cost = found.cost ∧
            ∀ generator?, (∀ generate ∈ generator?, FilterGenerator.TurnsFilters generate) →
              Alike Access.Turned (found.access generator?) (turned.access generator?)) ∧
        (catalog.hierarchy.contains typeName = false →
          ((Visit.unplanned extent typeName).addConditions conditions).evaluate catalog =
            .error (.typeNotFound typeName) ∧
          ((Visit.unplanned extent typeName).addConditions others).evaluate catalog =
            .error (.typeNotFound typeName)) := by
  refine ⟨fun operator reversible => ?_, fun catalog extent typeName conditions others turned => ?_⟩
  · obtain ⟨mirrored, reversed⟩ := Option.isSome_iff_exists.mp reversible
    exact ⟨mirrored, Operator.reverse_ok_iff.mpr reversed,
      fun left right => (Condition.Turned.turn reversed left right).answeredAlike,
      Operator.evaluate?_swap reversed⟩
  · have given : Visit.Turned ((Visit.unplanned extent typeName).addConditions conditions)
        ((Visit.unplanned extent typeName).addConditions others) := ⟨rfl, turned, .none⟩
    refine ⟨fun known => ?_, fun unknown => ⟨?_, ?_⟩⟩
    · obtain ⟨found, turned, ran, ranTurned, same⟩ := given.evaluate_known catalog known
      exact ⟨found, turned, ran, ranTurned, same, same.cost, fun _ impartial =>
        same.access impartial⟩
    · exact Visit.evaluate_unknown unknown
    · exact Visit.evaluate_unknown unknown

/-- An index of persons by age. -/
def personsByAge : Index := ⟨"ByAge", "Person", [⟨"age", .ascending, .integer⟩]⟩

def agedHistory : List Catalog.Declaration :=
  [.type "Person" none, .index personsByAge.name personsByAge.typeName personsByAge.columns]

def agedNamesakes : List Condition :=
  [.compare .less (.literal (.int 30)) (.path 0 ["age"]),
    .compare .equal (.path 0 ["name"]) (.parameter 0)]

/-- The same conditions, written the other way round. -/
def turnedNamesakes : List Condition :=
  [.compare .greater (.path 0 ["age"]) (.literal (.int 30)),
    .compare .equal (.parameter 0) (.path 0 ["name"])]

/-- Both ways of writing the conditions bound the ages in the same scan. -/
theorem operand_order_irrelevant_namesakes :
    (∃ mirrored, Operator.less.reverse = .ok mirrored ∧
      mirrored.evaluate? (.int 31) (.int 30) = Operator.less.evaluate? (.int 30) (.int 31)) ∧
    ∃ found turned,
      ((Visit.unplanned 0 "Person").addConditions agedNamesakes).evaluate
        ((Catalog.empty 0).declareAll agedHistory) = .ok found ∧
      ((Visit.unplanned 0 "Person").addConditions turnedNamesakes).evaluate
        ((Catalog.empty 0).declareAll agedHistory) = .ok turned ∧
      found.Turned turned ∧ turned.bestIndex? = some personsByAge ∧
      ∃ path, found.access none = .ok path ∧
        path = .indexScan 0 personsByAge .ascending
          [⟨"age", .integer, [⟨.greater, .literal (.int 30)⟩]⟩]
          (.compare .equal (.path 0 ["name"]) (.parameter 0)) false ∧
        Alike Access.Turned (.ok path) (turned.access none) := by
  obtain ⟨answers, visits⟩ := operand_order_irrelevant
  obtain ⟨mirrored, reversed, _, truth⟩ := answers .less rfl
  have turned : List.Forall₂ Condition.Turned agedNamesakes turnedNamesakes :=
    .cons (.turn rfl _ _) (.cons (.turn rfl _ _) .nil)
  obtain ⟨found, foundTurned, ran, ranTurned, same, _, paths⟩ :=
    (visits ((Catalog.empty 0).declareAll agedHistory) 0 "Person" _ _ turned).1 (by decide)
  cases ran
  cases ranTurned
  exact ⟨⟨mirrored, reversed, truth _ _⟩, _, _, rfl, rfl, same, rfl, _, rfl, rfl,
    paths none (by simp)⟩

end ExtentPlanner
