import ExtentPlanner.JoinTree.Plan
import ExtentPlanner.Proofs.StoredConjuncts
import Mathlib.Data.Multiset.ZeroCons
import Mathlib.Data.Multiset.AddSub

/-! What a plan does with conditions. A condition is used where it is evaluated as a conjunct of a
filter, where it bounds a column of an index scan, or where it gives the key of a lookup; `uses`
lists all uses in a plan, and `Use.Serves` says which conditions a use is good for. An access path
uses every condition that it was given once. The only filter beside them is the guard of a scan
over the index of another class. -/
namespace ExtentPlanner

/-- One use of a condition in a plan. -/
inductive Use where
  /-- A conjunct of the filter of an access path. -/
  | filter (extent : Nat) (conjunct : Condition)
  /-- A conjunct evaluated after a join. -/
  | post (conjunct : Condition)
  /-- A bound on a column of an index scan. -/
  | bound (extent : Nat) (comparison : ColumnComparison)
  /-- The key of a lookup by reference. -/
  | reference (extent : Nat) (reference : Operand)
  /-- The key of a lookup by identity. -/
  | identity (extent : Nat) (kind : IdentityKind) (key : Operand)

/-- Whether rows that pass the use satisfy the condition, as the planner takes it. -/
def Use.Serves : Use → Condition → Prop
  | .filter _ conjunct, condition | .post conjunct, condition => conjunct = condition
  | .bound extent comparison, condition => condition.columnComparison? extent = some comparison
  | .reference extent operand, condition => condition.referenceLookup? extent = some operand
  | .identity extent kind key, condition => condition.identityLookup? extent = some (kind, key)

namespace ColumnRange

def uses (extent : Nat) (range : ColumnRange) : List Use :=
  range.points.map fun point => .bound extent ⟨range.column, point.operator, point.value⟩

end ColumnRange

namespace Access

/-- The index that the access path scans. -/
def index? : Access → Option Index
  | indexScan _ index .. | fullScan _ index .. => some index
  | reference .. | identity .. => none

/-- The uses made of conditions before the filter is evaluated. -/
def keyUses : Access → List Use
  | indexScan extent _ _ ranges _ _ => ranges.flatMap (ColumnRange.uses extent)
  | fullScan .. => []
  | reference extent key _ => [.reference extent key]
  | identity extent kind key _ => [.identity extent kind key]

def uses (path : Access) : List Use :=
  path.keyUses ++ path.filter.filterConjuncts.map (.filter path.extent)

/-- The guard that a scan needs if its index is declared on another class than the extent. -/
def guards (path : Access) (typeName : String) : List Use :=
  match path.index? with
  | some index =>
    if index.typeName = typeName then []
    else [.filter path.extent (.isType (.object path.extent) (.named typeName))]
  | none => []

end Access

namespace PlanNode

def uses : PlanNode → List Use
  | access _ _ path => path.uses
  | join _ _ _ left right post => left.uses ++ right.uses ++ post.filterConjuncts.map .post
  | sort _ _ _ input | aggregate _ _ _ _ input | replan _ _ _ _ input => input.uses

end PlanNode

/-! ## Bounds of index scans -/

variable {conditions : List Condition}

/-- The points split off serve the conditions that do not stay behind. -/
theorem splitBounds_accounts (extent : Nat) (column : String) (conditions : List Condition) :
    ∃ served : Multiset Condition,
      (conditions : Multiset Condition) = served + (splitBounds extent column conditions).2 ∧
      Multiset.Rel Use.Serves
        ((splitBounds extent column conditions).1.map fun point =>
          Use.bound extent ⟨column, point.operator, point.value⟩) served := by
  induction conditions with
  | nil => exact ⟨0, rfl, .zero⟩
  | cons condition rest ih =>
    obtain ⟨served, parts, serves⟩ := ih
    rw [splitBounds]
    dsimp only
    split
    · rename_i comparison bounds
      obtain ⟨bounds, onColumn⟩ := Option.filter_eq_some_iff.mp bounds
      refine ⟨condition ::ₘ served, ?_, .cons ?_ serves⟩
      · rw [← Multiset.cons_coe, parts, Multiset.cons_add]
      · rw [Use.Serves, bounds, ← beq_iff_eq.mp onColumn]
    · refine ⟨served, ?_, serves⟩
      rw [← Multiset.cons_coe, ← Multiset.cons_coe, parts, Multiset.add_cons]

private theorem mem_splitBounds (unbounded : condition.columnComparison? extent = none)
    (member : condition ∈ conditions) :
    condition ∈ (splitBounds extent column conditions).2 := by
  induction conditions with
  | nil => cases member
  | cons head rest ih =>
    rw [splitBounds]
    dsimp only
    rcases List.mem_cons.mp member with rfl | later
    · rw [unbounded]
      exact List.mem_cons_self
    · split
      · exact ih later
      · exact List.mem_cons_of_mem _ (ih later)

/-- The ranges of an index serve the conditions that do not stay behind. -/
theorem columnRanges_accounts (extent bounded : Nat) (columns : List IndexColumn)
    (conditions : List Condition) :
    ∃ served : Multiset Condition,
      (conditions : Multiset Condition) =
        served + (columnRanges extent bounded columns conditions).2 ∧
      Multiset.Rel Use.Serves
        ((columnRanges extent bounded columns conditions).1.flatMap (ColumnRange.uses extent))
        served := by
  induction columns generalizing bounded conditions with
  | nil => exact ⟨0, by cases bounded <;> simp [columnRanges], by cases bounded <;> exact .zero⟩
  | cons column rest ih =>
    cases bounded with
    | zero => simpa [columnRanges, ColumnRange.uses] using ih 0 conditions
    | succ bounded =>
      obtain ⟨ofColumn, parts, serves⟩ := splitBounds_accounts extent column.path conditions
      obtain ⟨ofRest, restParts, restServes⟩ :=
        ih bounded (splitBounds extent column.path conditions).2
      refine ⟨ofColumn + ofRest, ?_, ?_⟩
      · rw [parts, restParts, Multiset.add_assoc]
        rfl
      · rw [columnRanges, List.flatMap_cons, ← Multiset.coe_add]
        exact .add serves restServes

private theorem mem_columnRanges (unbounded : condition.columnComparison? extent = none)
    (member : condition ∈ conditions) :
    condition ∈ (columnRanges extent bounded columns conditions).2 := by
  induction columns generalizing bounded conditions with
  | nil => cases bounded <;> exact member
  | cons column rest ih =>
    cases bounded with
    | zero => exact ih member
    | succ bounded => exact ih (mem_splitBounds unbounded member)

theorem columnRanges_unbounded (extent : Nat) (columns : List IndexColumn)
    (conditions : List Condition) : columnRanges extent 0 columns conditions =
      (columns.map fun column => ⟨column.path, column.columnType, []⟩, conditions) := by
  induction columns with
  | nil => rfl
  | cons column rest ih => rw [columnRanges, ih, List.map_cons]

/-! ## Access paths -/

namespace Visit

variable {visit : Visit}

/-- A lookup that a visit has found is given by the condition noted as replaced. -/
structure LookupsFit (visit : Visit) : Prop where
  reference : ∀ operand, visit.reference? = some operand → ∃ condition,
    visit.replaced? = some condition ∧ condition.referenceLookup? visit.extent = some operand
  identity : ∀ kind key, visit.identity? = some (kind, key) → ∃ condition,
    visit.replaced? = some condition ∧ condition.identityLookup? visit.extent = some (kind, key)
  neither : visit.reference? = none → visit.identity? = none → visit.replaced? = none

/-- Every index that the visit may scan has all objects of its class. -/
structure ScansFit (catalog : Catalog) (visit : Visit) : Prop where
  hinted : ∀ index, visit.hintedIndex? = some index → catalog.canScan index visit.typeName = true
  ordered : ∀ use, visit.orderIndex? = some use → catalog.canScan use.index visit.typeName = true
  best : ∀ index, visit.bestIndex? = some index → catalog.canScan index visit.typeName = true
  whole : ∀ index, visit.scanIndex? = some index → catalog.canScan index visit.typeName = true

/-- What an access path owes to a visit: it uses the `owed` conditions once each and nothing else
but its guard, and conditions that cannot bound a column remain in its filter. -/
structure Accounted (visit : Visit) (owed : List Condition) (path : Access) : Prop where
  extent : path.extent = visit.extent
  uses : ∃ own : List Use, path.uses = own ++ path.guards visit.typeName ∧
    Multiset.Rel Use.Serves own owed
  filtered : ∀ condition ∈ visit.conditions, condition.columnComparison? visit.extent = none →
    condition ∈ path.filter.filterConjuncts

private theorem serves_filter (extent : Nat) (conditions : List Condition) :
    Multiset.Rel Use.Serves (conditions.map (Use.filter extent)) conditions := by
  induction conditions with
  | nil => exact .zero
  | cons condition rest ih => exact .cons (by rw [Use.Serves]) ih

private theorem guardedFilter_conjuncts (visit : Visit) (index : Index)
    (each : ∀ condition ∈ conditions, condition.IsConjunct) :
    (visit.guardedFilter index conditions).filterConjuncts =
      conditions ++ if index.typeName = visit.typeName then []
        else [.isType (.object visit.extent) (.named visit.typeName)] := by
  refine Condition.filterConjuncts_conjunction fun condition member => ?_
  rcases List.mem_append.mp member with given | guard
  · exact each condition given
  · split at guard
    · cases guard
    · rw [List.mem_singleton.mp guard]
      exact ⟨rfl, rfl⟩

private theorem indexScan_accounted (index : Index) (direction : Direction)
    (each : ∀ condition ∈ conditions, condition.IsConjunct)
    (included : ∀ condition ∈ visit.conditions, condition ∈ conditions) :
    visit.Accounted conditions (visit.indexScan index direction conditions) := by
  let bounded := (index.coverage (conditions.filterMap (·.columnComparison? visit.extent))).columns
  let ranges := (columnRanges visit.extent bounded index.columns conditions).1
  let left := (columnRanges visit.extent bounded index.columns conditions).2
  have scan : visit.indexScan index direction conditions =
      .indexScan visit.extent index direction ranges (visit.guardedFilter index left)
        visit.innermost := rfl
  obtain ⟨served, parts, serves⟩ :=
    columnRanges_accounts visit.extent bounded index.columns conditions
  have eachLeft : ∀ condition ∈ left, condition.IsConjunct := by
    intro condition member
    refine each condition (Multiset.mem_coe.mp ?_)
    rw [parts]
    exact Multiset.mem_add.mpr (.inr member)
  refine ⟨rfl, ⟨ranges.flatMap (ColumnRange.uses visit.extent) ++ left.map (.filter visit.extent),
    ?_, ?_⟩, fun condition member unbounded => ?_⟩
  · rw [scan, Access.uses, Access.filter, guardedFilter_conjuncts visit index eachLeft]
    by_cases same : index.typeName = visit.typeName <;>
      simp [Access.keyUses, Access.guards, Access.index?, Access.extent, same]
  · rw [parts, ← Multiset.coe_add]
    exact .add serves (serves_filter visit.extent left)
  · rw [scan, Access.filter, guardedFilter_conjuncts visit index eachLeft]
    exact List.mem_append_left _ (mem_columnRanges unbounded (included condition member))

theorem extentScan_cases (visit : Visit) (index : Index)
    (generator? : Option FilterGenerator) :
    (∃ code, visit.extentScan index generator? = .fullScan visit.extent index
      (visit.guardedFilter index visit.conditions) code visit.innermost) ∨
    visit.extentScan index generator? = visit.indexScan index .ascending visit.conditions := by
  unfold extentScan
  split
  · exact .inr rfl
  · cases written : generator?.bind fun generate =>
        generate visit.extent visit.typeName (visit.guardedFilter index visit.conditions) with
    | some code => exact .inl ⟨code, by simp only [written]⟩
    | none => exact .inr (by simp only [written])

private theorem extentScan_accounted (index : Index) (generator? : Option FilterGenerator)
    (each : ∀ condition ∈ visit.conditions, condition.IsConjunct) :
    visit.Accounted visit.conditions (visit.extentScan index generator?) := by
  rcases visit.extentScan_cases index generator? with ⟨code, same⟩ | same <;> rw [same]
  · refine ⟨rfl, ⟨visit.conditions.map (.filter visit.extent), ?_, serves_filter _ _⟩,
      fun condition member _ => ?_⟩
    · simp only [Access.uses, Access.filter, guardedFilter_conjuncts visit index each]
      by_cases same : index.typeName = visit.typeName <;>
        simp [Access.keyUses, Access.guards, Access.index?, Access.extent, same]
    · simp only [Access.filter, guardedFilter_conjuncts visit index each]
      exact List.mem_append_left _ member
  · exact indexScan_accounted index .ascending each fun _ member => member

private theorem lookup_accounted {key : Use} {path : Access}
    (each : ∀ condition ∈ visit.conditions, condition.IsConjunct)
    (extent : path.extent = visit.extent) (filter : path.filter = .conjunction visit.conditions)
    (noScan : path.index? = none) (keyed : path.keyUses = [key])
    (replaced : visit.replaced? = some condition) (serves : key.Serves condition) :
    visit.Accounted visit.allConditions path := by
  have conjuncts : path.filter.filterConjuncts = visit.conditions := by
    rw [filter, Condition.filterConjuncts_conjunction each]
  refine ⟨extent, ⟨path.uses, by simp [Access.guards, noScan], ?_⟩, fun other member _ => ?_⟩
  · have moved := @List.perm_append_comm _ visit.conditions [condition]
    rw [Access.uses, keyed, conjuncts, extent, allConditions, replaced, Option.toList_some,
      Multiset.coe_eq_coe.mpr moved, List.singleton_append]
    exact .cons serves (serves_filter _ _)
  · rwa [conjuncts]

/-- Whatever access path a visit takes, it uses the conditions of the visit once each. The
condition that a lookup has replaced is used even if the lookup is not taken. -/
theorem access_accounted (fit : visit.LookupsFit)
    (each : ∀ condition ∈ visit.allConditions, condition.IsConjunct)
    (ran : visit.access generator? = .ok path) : visit.Accounted visit.allConditions path := by
  have included : ∀ condition ∈ visit.conditions, condition ∈ visit.allConditions :=
    fun _ member => List.mem_append_left _ member
  have eachOwn := fun condition member => each condition (included condition member)
  rw [access] at ran
  split at ran
  · cases ran
    exact indexScan_accounted _ _ each included
  · cases ran
    exact indexScan_accounted _ _ each included
  · rename_i found
    cases ran
    obtain ⟨condition, replaced, serves⟩ := fit.reference _ found
    exact lookup_accounted eachOwn rfl rfl rfl rfl replaced serves
  · rename_i found
    cases ran
    obtain ⟨condition, replaced, serves⟩ := fit.identity _ _ found
    exact lookup_accounted eachOwn rfl rfl rfl rfl replaced serves
  · rename_i noReference noIdentity _
    cases ran
    have all : visit.allConditions = visit.conditions := by
      rw [allConditions, fit.neither noReference noIdentity, Option.toList_none, List.append_nil]
    rw [all]
    exact indexScan_accounted _ _ eachOwn fun _ member => member
  · rename_i noReference noIdentity _ _
    cases ran
    have all : visit.allConditions = visit.conditions := by
      rw [allConditions, fit.neither noReference noIdentity, Option.toList_none, List.append_nil]
    rw [all]
    exact extentScan_accounted _ _ eachOwn
  · cases ran

/-- An access path scans only an index that has all objects of the class. -/
theorem access_canScan {catalog : Catalog} (fit : visit.ScansFit catalog)
    (ran : visit.access generator? = .ok path) (scanned : path.index? = some index) :
    catalog.canScan index visit.typeName = true := by
  rw [access] at ran
  split at ran
  · rename_i hinted
    cases ran
    cases scanned
    exact fit.hinted _ hinted
  · rename_i ordered
    cases ran
    cases scanned
    exact fit.ordered _ ordered
  · cases ran
    cases scanned
  · cases ran
    cases scanned
  · rename_i best
    cases ran
    cases scanned
    exact fit.best _ best
  · rename_i whole
    cases ran
    rcases visit.extentScan_cases _ generator? with ⟨code, same⟩ | same <;> rw [same] at scanned <;>
      cases scanned <;> exact fit.whole _ whole
  · cases ran

end Visit

end ExtentPlanner
