import ExtentPlanner.Proofs.VisitEvaluation

/-! What an access path reads of other extents. The key of a lookup and the bounds of a scan are
evaluated before the extent itself is visited; each is an operand of a condition that the visit was
given, and operands that read the extent itself are never taken. A filter may read the extent as
well. -/
namespace ExtentPlanner

/-! ## Operands that conditions give -/

theorem Operand.reads_iff {operand : Operand} :
    operand.reads extent = true ↔ extent ∈ operand.extents := by
  simp [reads, extents]

namespace Condition

variable {condition : Condition}

theorem referenceLookup?_reads (found : condition.referenceLookup? extent = some operand) :
    extent ∉ operand.extents ∧ ∀ other ∈ operand.extents, other ∈ condition.extents := by
  cases condition with
  | compare operator left right =>
    cases operator with
    | equal =>
      obtain ⟨side, usable⟩ := Option.filter_eq_some_iff.mp found
      simp only [Bool.and_eq_true, Bool.not_eq_true', ← Bool.not_eq_true, Operand.reads_iff]
        at usable
      refine ⟨usable.2, fun other read => ?_⟩
      split at side
      · cases side
        exact List.mem_append_right _ read
      · split at side <;> cases side
        exact List.mem_append_left _ read
    | _ => cases found
  | truth | isType | and | or | not => cases found

theorem identityLookup?_reads (found : condition.identityLookup? extent = some (kind, operand)) :
    extent ∉ operand.extents ∧ ∀ other ∈ operand.extents, other ∈ condition.extents := by
  cases condition with
  | compare operator left right =>
    cases operator with
    | equal =>
      obtain ⟨side, usable⟩ := Option.filter_eq_some_iff.mp found
      simp only [Bool.and_eq_true, Bool.not_eq_true', ← Bool.not_eq_true, Operand.reads_iff]
        at usable
      refine ⟨usable.1, fun other read => ?_⟩
      split at side <;> cases side
      · exact List.mem_append_right _ read
      · exact List.mem_append_left _ read
    | _ => cases found
  | truth | isType | and | or | not => cases found

private theorem columnBound?_reads {operator? : Option Operator}
    (found : columnBound? extent side operator? operand = some comparison) :
    extent ∉ comparison.value.extents ∧ comparison.value = operand := by
  unfold columnBound? at found
  split at found
  · split at found
    · cases found
    · rename_i free
      cases found
      exact ⟨mt Operand.reads_iff.mpr free, rfl⟩
  · cases found

theorem columnComparison?_reads (found : condition.columnComparison? extent = some comparison) :
    extent ∉ comparison.value.extents ∧
      ∀ other ∈ comparison.value.extents, other ∈ condition.extents := by
  cases condition with
  | compare operator left right =>
    rw [columnComparison?] at found
    split at found
    · rcases Option.or_eq_some_iff.mp found with onLeft | ⟨_, onRight⟩
      · obtain ⟨free, same⟩ := columnBound?_reads onLeft
        exact ⟨free, fun other read => List.mem_append_right _ (same ▸ read)⟩
      · obtain ⟨free, same⟩ := columnBound?_reads onRight
        exact ⟨free, fun other read => List.mem_append_left _ (same ▸ read)⟩
    · cases found
  | truth | isType | and | or | not => cases found

/-- Whatever a filter reads is read by one of its conjuncts. -/
theorem exists_conjunct_of_read {filter : Condition} (read : extent ∈ filter.extents) :
    ∃ conjunct ∈ filter.filterConjuncts, extent ∈ conjunct.extents := by
  induction filter with
  | truth value => cases read
  | and left right lefts rights =>
    simp only [filterConjuncts, conjuncts, List.filter_append, List.mem_append]
    rcases List.mem_append.mp read with onLeft | onRight
    · obtain ⟨conjunct, member, reads⟩ := lefts onLeft
      exact ⟨conjunct, .inl member, reads⟩
    · obtain ⟨conjunct, member, reads⟩ := rights onRight
      exact ⟨conjunct, .inr member, reads⟩
  | compare | isType | or | not => exact ⟨_, List.mem_singleton_self _, read⟩

end Condition

/-! ## Access paths -/

/-- The extents read where a condition is used. -/
def Use.reads : Use → List Nat
  | .filter _ conjunct | .post conjunct => conjunct.extents
  | .bound _ comparison => comparison.value.extents
  | .reference _ operand => operand.extents
  | .identity _ _ key => key.extents

theorem Use.Serves.reads {use : Use} (serves : use.Serves condition) :
    ∀ extent ∈ use.reads, extent ∈ condition.extents := by
  cases use with
  | filter | post =>
    cases serves
    exact fun _ => id
  | bound extent comparison => exact (Condition.columnComparison?_reads serves).2
  | reference extent operand => exact (Condition.referenceLookup?_reads serves).2
  | identity extent kind key => exact (Condition.identityLookup?_reads serves).2

namespace Access

variable {path : Access}

/-- The extents read by the key of a lookup or by the bounds of a scan. -/
def keyExtents : Access → List Nat
  | indexScan _ _ _ ranges _ _ => ranges.flatMap fun range => range.points.flatMap (·.value.extents)
  | fullScan .. => []
  | reference _ key _ | identity _ _ key _ => key.extents

theorem keyExtents_eq (path : Access) : path.keyExtents = path.keyUses.flatMap Use.reads := by
  cases path with
  | indexScan => simp [keyExtents, keyUses, ColumnRange.uses, Use.reads, List.flatMap_assoc,
      List.flatMap_map]
  | fullScan => rfl
  | reference | identity => simp [keyExtents, keyUses, Use.reads]

/-- A key does not read the extent that it is about. -/
theorem not_mem_reads_of_keyUse (key : use ∈ path.keyUses) (serves : use.Serves condition) :
    path.extent ∉ use.reads := by
  cases path with
  | indexScan extent index direction ranges filter innermost =>
    obtain ⟨range, _, inside⟩ := List.mem_flatMap.mp key
    obtain ⟨point, _, rfl⟩ := List.mem_map.mp inside
    exact (Condition.columnComparison?_reads serves).1
  | fullScan => cases key
  | reference extent operand filter =>
    cases List.mem_singleton.mp key
    exact (Condition.referenceLookup?_reads serves).1
  | identity extent kind operand filter =>
    cases List.mem_singleton.mp key
    exact (Condition.identityLookup?_reads serves).1

private theorem guard_of_mem (guarded : use ∈ path.guards typeName) :
    use = .filter path.extent (.isType (.object path.extent) (.named typeName)) := by
  rw [guards] at guarded
  split at guarded
  · split at guarded
    · cases guarded
    · exact List.mem_singleton.mp guarded
  · cases guarded

private theorem not_guard_of_keyUse (key : use ∈ path.keyUses) : use ∉ path.guards typeName := by
  intro guarded
  have same := guard_of_mem guarded
  subst same
  cases path with
  | indexScan extent index direction ranges filter innermost =>
    obtain ⟨range, _, inside⟩ := List.mem_flatMap.mp key
    obtain ⟨point, _, same⟩ := List.mem_map.mp inside
    cases same
  | fullScan => cases key
  | reference | identity => cases List.mem_singleton.mp key

end Access

theorem Visit.access_extent {visit : Visit} (ran : visit.access generator? = .ok path) :
    path.extent = visit.extent := by
  rw [access] at ran
  split at ran <;> cases ran
  case h_6 index _ _ _ _ _ _ =>
    rcases visit.extentScan_cases index generator? with ⟨code, same⟩ | same <;> rw [same] <;> rfl
  all_goals rfl

/-- If the conditions of a visit read only extents visited before it and its own, the key and the
bounds of its access path read only those visited before. -/
theorem Visit.Prepared.path_reads {visit : Visit} {catalog : Catalog} {before : List Nat}
    (prepared : visit.Prepared catalog given) (each : ∀ condition ∈ given, condition.IsConjunct)
    (reads : ∀ condition ∈ given, ∀ extent ∈ condition.extents, extent ∈ before ++ [visit.extent])
    (ran : visit.access generator? = .ok path) :
    path.extent = visit.extent ∧ (∀ extent ∈ path.keyExtents, extent ∈ before) ∧
      ∀ extent ∈ path.filter.extents, extent ∈ before ++ [visit.extent] := by
  obtain ⟨same, own, served, dropped, parts, uses, serves, _⟩ := prepared.accounted each ran
  have serving : ∀ use ∈ path.uses, use ∉ path.guards visit.typeName →
      ∃ condition ∈ given, use.Serves condition := by
    intro use member unguarded
    rw [uses] at member
    have inOwn := (List.mem_append.mp member).resolve_right unguarded
    obtain ⟨condition, stored, serves⟩ :=
      Multiset.exists_mem_of_rel_of_mem serves (Multiset.mem_coe.mpr inOwn)
    refine ⟨condition, Multiset.mem_coe.mp ?_, serves⟩
    rw [parts]
    exact Multiset.mem_add.mpr (.inl stored)
  refine ⟨same, fun extent read => ?_, fun extent read => ?_⟩
  · rw [Access.keyExtents_eq] at read
    obtain ⟨use, key, read⟩ := List.mem_flatMap.mp read
    obtain ⟨condition, stored, serves⟩ := serving use (List.mem_append_left _ key)
      (Access.not_guard_of_keyUse key)
    have scope := reads condition stored extent (serves.reads extent read)
    refine (List.mem_append.mp scope).resolve_right fun itself => ?_
    rw [List.mem_singleton.mp itself, ← same] at read
    exact Access.not_mem_reads_of_keyUse key serves read
  · obtain ⟨conjunct, member, read⟩ := Condition.exists_conjunct_of_read read
    have used : Use.filter path.extent conjunct ∈ path.uses :=
      List.mem_append_right _ (List.mem_map_of_mem member)
    by_cases guarded : Use.filter path.extent conjunct ∈ path.guards visit.typeName
    · cases Access.guard_of_mem guarded
      rw [List.mem_singleton.mp read, same]
      exact List.mem_append_right _ (List.mem_singleton_self _)
    · obtain ⟨condition, stored, serves⟩ := serving _ used guarded
      exact reads condition stored extent (serves.reads extent read)

end ExtentPlanner
