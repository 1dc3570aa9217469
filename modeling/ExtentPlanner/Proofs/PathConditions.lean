import ExtentPlanner.Proofs.VisitEvaluation

/-! What the access path of a visit enforces. The path has a key, which is a lookup or the bounds of
a scan, and a filter. A condition is enforced through the key, in the filter, or because the
declared class or an assertion in the filter implies it. `access_evaluates` says which conditions of
the visit are found there, whatever path is taken. -/
namespace ExtentPlanner

/-! ## Conditions that give lookups -/

namespace Condition

variable {condition : Condition}

/-- An equality that can be the key of a lookup and no bound of a scan. -/
structure IsLookup (extent : Nat) (condition : Condition) : Prop where
  equality : ∃ left right, condition = compare .equal left right
  unbounded : condition.columnComparison? extent = none

theorem IsLookup.single (lookup : condition.IsLookup extent) :
    condition.conjuncts = [condition] := by
  obtain ⟨left, right, rfl⟩ := lookup.equality
  rfl

theorem IsLookup.asserts_nothing (lookup : condition.IsLookup extent) (other : Nat) :
    condition.assertedType? other = none := by
  obtain ⟨left, right, rfl⟩ := lookup.equality
  rfl

private theorem column?_of_not_reads {operand : Operand} (free : operand.reads extent = false) :
    operand.column? extent = none := by
  cases column : operand.column? extent with
  | none => rfl
  | some member =>
    rw [Operand.reads_of_column? column] at free
    cases free

private theorem column?_of_identityOf? {operand : Operand}
    (identity : identityOf? extent operand = some kind) : operand.column? extent = none := by
  cases operand with
  | objectNumber | objectId => rfl
  | literal | parameter | path | object => cases identity

/-- An equality between operands that are no columns bounds no scan. -/
private theorem isLookup_equal {left right : Operand} (onLeft : left.column? extent = none)
    (onRight : right.column? extent = none) : (compare .equal left right).IsLookup extent :=
  ⟨⟨left, right, rfl⟩, by simp [columnComparison?, columnBound?, onLeft, onRight]⟩

theorem isLookup_of_reference (found : condition.referenceLookup? extent = some operand) :
    condition.IsLookup extent := by
  cases condition with
  | compare operator left right =>
    cases operator with
    | equal =>
      obtain ⟨side, usable⟩ := Option.filter_eq_some_iff.mp found
      simp only [Bool.and_eq_true, Bool.not_eq_true'] at usable
      have free := column?_of_not_reads usable.2
      split at side
      · rename_i isObject
        cases side
        exact isLookup_equal (isObject ▸ rfl) free
      · split at side
        · rename_i isObject
          cases side
          exact isLookup_equal free (isObject ▸ rfl)
        · cases side
    | _ => cases found
  | truth | isType | and | or | not => cases found

theorem isLookup_of_identity (found : condition.identityLookup? extent = some key) :
    condition.IsLookup extent := by
  cases condition with
  | compare operator left right =>
    cases operator with
    | equal =>
      obtain ⟨side, usable⟩ := Option.filter_eq_some_iff.mp found
      simp only [Bool.and_eq_true, Bool.not_eq_true'] at usable
      have free := column?_of_not_reads usable.1
      split at side <;> cases side
      · rename_i identity
        exact isLookup_equal (column?_of_identityOf? identity) free
      · rename_i identity
        exact isLookup_equal free (column?_of_identityOf? identity)
    | _ => cases found
  | truth | isType | and | or | not => cases found

end Condition

/-! ## What a path enforces -/

/-- Rows of the path satisfy the condition, as the planner takes it. -/
inductive Access.Enforces (declared : DeclaredExtent) (path : Access) (condition : Condition) :
    Prop where
  | key (member : use ∈ path.keyUses) (serves : use.Serves condition)
  | filter (inside : condition.conjuncts ⊆ path.filter.conjuncts)
  | implied (follows : declared.Implied path.filter.conjuncts condition)

namespace Visit

variable {visit : Visit}

/-- The conditions that the path is given: with a hint or a wanted order also the one that the
lookup would have replaced. -/
def pathConditions (visit : Visit) : List Condition :=
  if visit.hintedIndex?.isSome || visit.orderIndex?.isSome then visit.allConditions
  else visit.conditions

/-- The key of the lookup that the path is, if it is one. -/
def pathLookup? (visit : Visit) : Option Use :=
  if visit.hintedIndex?.isSome || visit.orderIndex?.isSome then none
  else
    match visit.reference?, visit.identity? with
    | some reference, _ => some (.reference visit.extent reference)
    | none, some (kind, key) => some (.identity visit.extent kind key)
    | none, none => none

/-- The visit still has a condition, or its path is the lookup that the condition gives. -/
def Remembers (visit : Visit) (condition : Condition) : Prop :=
  (∃ other ∈ visit.pathConditions, condition ∈ other.conjuncts) ∨
    ∃ use, visit.pathLookup? = some use ∧ use.Serves condition

/-- Where a path has the conditions of its visit. -/
structure Evaluates (visit : Visit) (path : Access) : Prop where
  keys : ∀ use ∈ path.keyUses,
    visit.pathLookup? = some use ∨ ∃ comparison, use = .bound visit.extent comparison
  lookup : ∀ use, visit.pathLookup? = some use → use ∈ path.keyUses
  kept : ∀ condition ∈ visit.pathConditions,
    (∃ comparison, .bound visit.extent comparison ∈ path.keyUses ∧
        condition.columnComparison? visit.extent = some comparison) ∨
      condition.conjuncts ⊆ path.filter.conjuncts
  filter : ∀ conjunct ∈ path.filter.conjuncts,
    (∃ condition ∈ visit.pathConditions, conjunct ∈ condition.conjuncts) ∨
      conjunct = .truth .isTrue ∨ ∃ object target, conjunct = .isType object target

theorem conditions_subset_path (visit : Visit) : visit.conditions ⊆ visit.pathConditions := by
  unfold pathConditions
  split
  · exact List.subset_append_left _ _
  · exact List.Subset.refl _

/-! ## Filters -/

theorem subset_conjunction {conditions : List Condition} (member : condition ∈ conditions) :
    condition.conjuncts ⊆ (Condition.conjunction conditions).conjuncts := by
  rw [Condition.conjuncts_conjunction (List.ne_nil_of_mem member)]
  exact fun conjunct inside => List.mem_flatMap.mpr ⟨condition, member, inside⟩

theorem mem_conjunction {conditions : List Condition}
    (inside : conjunct ∈ (Condition.conjunction conditions).conjuncts) :
    (∃ condition ∈ conditions, conjunct ∈ condition.conjuncts) ∨ conjunct = .truth .isTrue := by
  by_cases empty : conditions = []
  · rw [empty] at inside
    exact .inr (List.mem_singleton.mp inside)
  · rw [Condition.conjuncts_conjunction empty] at inside
    exact .inl (List.mem_flatMap.mp inside)

private theorem subset_guardedFilter (visit : Visit) (index : Index) {conditions : List Condition}
    (member : condition ∈ conditions) :
    condition.conjuncts ⊆ (visit.guardedFilter index conditions).conjuncts :=
  subset_conjunction (List.mem_append_left _ member)

private theorem mem_guardedFilter {index : Index} {conditions : List Condition}
    (inside : conjunct ∈ (visit.guardedFilter index conditions).conjuncts) :
    (∃ condition ∈ conditions, conjunct ∈ condition.conjuncts) ∨
      conjunct = .truth .isTrue ∨ ∃ object target, conjunct = .isType object target := by
  rcases mem_conjunction inside with ⟨condition, member, within⟩ | isTrue
  · rcases List.mem_append.mp member with given | guard
    · exact .inl ⟨condition, given, within⟩
    · split at guard
      · cases guard
      · rw [List.mem_singleton.mp guard] at within
        exact .inr (.inr ⟨_, _, List.mem_singleton.mp within⟩)
  · exact .inr (.inl isTrue)

/-! ## Access paths -/

/-- Whatever the bounds of a scan leave behind is in its filter. -/
private theorem indexScan_evaluates (index : Index) (direction : Direction)
    {conditions : List Condition} (given : visit.pathConditions = conditions)
    (scans : visit.pathLookup? = none) :
    visit.Evaluates (visit.indexScan index direction conditions) := by
  let bounded := (index.coverage (conditions.filterMap (·.columnComparison? visit.extent))).columns
  let ranges := (columnRanges visit.extent bounded index.columns conditions).1
  let left := (columnRanges visit.extent bounded index.columns conditions).2
  have scan : visit.indexScan index direction conditions =
      .indexScan visit.extent index direction ranges (visit.guardedFilter index left)
        visit.innermost := rfl
  obtain ⟨served, parts, serves⟩ :=
    columnRanges_accounts visit.extent bounded index.columns conditions
  have parted : ∀ condition, condition ∈ conditions ↔ condition ∈ served ∨ condition ∈ left := by
    intro condition
    rw [← Multiset.mem_coe, parts, Multiset.mem_add, Multiset.mem_coe]
  have bounds : ∀ use ∈ ranges.flatMap (ColumnRange.uses visit.extent),
      ∃ comparison, use = .bound visit.extent comparison := by
    intro use member
    obtain ⟨range, _, inRange⟩ := List.mem_flatMap.mp member
    obtain ⟨point, _, rfl⟩ := List.mem_map.mp inRange
    exact ⟨_, rfl⟩
  rw [scan]
  refine ⟨fun use member => .inr (bounds use member), by simp [scans], ?_, ?_⟩
  · rw [given]
    intro condition member
    rcases (parted condition).mp member with bound | stays
    · obtain ⟨use, key, given⟩ :=
        Multiset.exists_mem_of_rel_of_mem (Multiset.rel_flip.mpr serves) bound
      obtain ⟨comparison, rfl⟩ := bounds use key
      exact .inl ⟨comparison, key, given⟩
    · exact .inr (visit.subset_guardedFilter index stays)
  · rw [given]
    intro conjunct inside
    rcases mem_guardedFilter inside with ⟨condition, stays, within⟩ | guard
    · exact .inl ⟨condition, (parted condition).mpr (.inr stays), within⟩
    · exact .inr guard

private theorem extentScan_evaluates (index : Index) (generator? : Option FilterGenerator)
    (given : visit.pathConditions = visit.conditions) (scans : visit.pathLookup? = none) :
    visit.Evaluates (visit.extentScan index generator?) := by
  rcases visit.extentScan_cases index generator? with ⟨code, same⟩ | same <;> rw [same]
  · refine ⟨by simp [Access.keyUses], by simp [scans], ?_, ?_⟩
    · rw [given]
      exact fun condition member => .inr (visit.subset_guardedFilter index member)
    · rw [given]
      exact fun conjunct inside => mem_guardedFilter inside
  · exact indexScan_evaluates index .ascending given scans

private theorem lookup_evaluates {path : Access} (given : visit.pathConditions = visit.conditions)
    (found : visit.pathLookup? = some key) (keyed : path.keyUses = [key])
    (filter : path.filter = .conjunction visit.conditions) : visit.Evaluates path := by
  refine ⟨?_, ?_, ?_, ?_⟩
  · rw [keyed, found]
    exact fun use member => .inl (congrArg some (List.mem_singleton.mp member).symm)
  · rw [keyed, found]
    exact fun use same => List.mem_singleton.mpr (Option.some.inj same).symm
  · rw [given, filter]
    exact fun condition member => .inr (subset_conjunction member)
  · rw [given, filter]
    intro conjunct inside
    exact (mem_conjunction inside).imp_right .inl

theorem access_evaluates (ran : visit.access generator? = .ok path) : visit.Evaluates path := by
  rw [access] at ran
  split at ran
  · rename_i hinted
    cases ran
    exact indexScan_evaluates _ _ (by simp [pathConditions, hinted]) (by simp [pathLookup?, hinted])
  · rename_i noHint ordered
    cases ran
    exact indexScan_evaluates _ _ (by simp [pathConditions, ordered])
      (by simp [pathLookup?, ordered])
  · rename_i noHint noOrder found
    cases ran
    exact lookup_evaluates (by simp [pathConditions, noHint, noOrder])
      (by simp [pathLookup?, noHint, noOrder, found]) rfl rfl
  · rename_i noHint noOrder noReference found
    cases ran
    exact lookup_evaluates (by simp [pathConditions, noHint, noOrder])
      (by simp [pathLookup?, noHint, noOrder, noReference, found]) rfl rfl
  · rename_i noHint noOrder noReference noIdentity _
    cases ran
    exact indexScan_evaluates _ _ (by simp [pathConditions, noHint, noOrder])
      (by simp [pathLookup?, noHint, noOrder, noReference, noIdentity])
  · rename_i noHint noOrder noReference noIdentity _ _
    cases ran
    exact extentScan_evaluates _ _ (by simp [pathConditions, noHint, noOrder])
      (by simp [pathLookup?, noHint, noOrder, noReference, noIdentity])
  · cases ran

/-- A visit that can be scanned has an access path. -/
theorem access_succeeds (scanned : visit.scanIndex?.isSome = true)
    (generator? : Option FilterGenerator) : ∃ path, visit.access generator? = .ok path := by
  rw [access]
  split
  case h_7 none => simp [none] at scanned
  all_goals exact ⟨_, rfl⟩

/-! ## Enforced conditions -/

variable {declared : DeclaredExtent}

/-- Every condition that the path is given is enforced. -/
theorem Evaluates.enforces (evaluates : visit.Evaluates path)
    (member : condition ∈ visit.pathConditions) : path.Enforces declared condition := by
  rcases evaluates.kept condition member with ⟨comparison, key, bounds⟩ | inside
  · exact .key key bounds
  · exact .filter inside

/-- Assertions that remain with the visit are in the filter, so what they imply is enforced. -/
theorem Evaluates.enforces_implied (evaluates : visit.Evaluates path)
    (own : declared.extent = visit.extent)
    (follows : declared.Implied visit.conditions condition) :
    path.Enforces declared condition := by
  obtain ⟨target, asserts, byDeclared | ⟨other, member, narrower, narrows, lower⟩⟩ := follows
  · exact .implied ⟨target, asserts, .inl byDeclared⟩
  · refine .implied ⟨target, asserts, .inr ⟨other, ?_, narrower, narrows, lower⟩⟩
    have unbounded : other.columnComparison? visit.extent = none :=
      columnComparison?_of_assertedType? (own ▸ narrows)
    -- An assertion bounds no column, so it has not gone into the key of a scan.
    rcases evaluates.kept other (visit.conditions_subset_path member) with
      ⟨comparison, _, bounds⟩ | inside
    · rw [unbounded] at bounds
      cases bounds
    · apply inside
      cases other with
      | isType object asserted => exact List.mem_singleton_self _
      | truth | compare | and | or | not => cases narrows

/-- A condition that can give a lookup is enforced exactly if the visit remembers it. -/
theorem Evaluates.enforces_lookup_iff (evaluates : visit.Evaluates path)
    (lookup : condition.IsLookup visit.extent) :
    path.Enforces declared condition ↔ visit.Remembers condition := by
  constructor
  · intro enforced
    cases enforced with
    | key member serves =>
      rcases evaluates.keys _ member with found | ⟨comparison, rfl⟩
      · exact .inr ⟨_, found, serves⟩
      · cases lookup.unbounded.symm.trans serves
    | filter inside =>
      have own : condition ∈ path.filter.conjuncts := inside (by simp [lookup.single])
      rcases evaluates.filter _ own with kept | rfl | ⟨_, _, rfl⟩
      · exact .inl kept
      · obtain ⟨_, _, same⟩ := lookup.equality
        cases same
      · obtain ⟨_, _, same⟩ := lookup.equality
        cases same
    | implied follows =>
      obtain ⟨target, asserts, _⟩ := follows
      cases (lookup.asserts_nothing _).symm.trans asserts
  · rintro (⟨other, member, inside⟩ | ⟨use, found, serves⟩)
    · rcases evaluates.kept other member with ⟨comparison, key, bounds⟩ | kept
      · cases other with
        | compare operator left right =>
          rw [List.mem_singleton.mp inside] at lookup
          cases lookup.unbounded.symm.trans bounds
        | truth | isType | and | or | not => cases bounds
      · refine .filter ?_
        rw [lookup.single]
        exact List.cons_subset.mpr ⟨kept inside, List.nil_subset _⟩
    · exact .key (evaluates.lookup use found) serves

end Visit

end ExtentPlanner
