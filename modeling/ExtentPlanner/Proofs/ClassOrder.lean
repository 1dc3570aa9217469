import ExtentPlanner.Catalog
import Mathlib.Data.List.Infix
import Mathlib.Data.List.Nodup

/-! The classes of a catalog are ordered by subtyping. Registration keeps class names apart, and
with distinct names the ancestors of an ancestor are a tail of one's own ancestors; transitivity
and antisymmetry follow from that. The second part says which indexes the searches of a catalog
can find: only those declared on the class itself or on one of its ancestors. -/
namespace ExtentPlanner

/-! ## Ancestors -/

namespace Hierarchy

/-- Every class is registered once. -/
def Distinct (hierarchy : Hierarchy) : Prop :=
  (hierarchy.definitions.map (·.name)).Nodup

/-- A walk towards older classes meets the definitions in the order in which they are listed. -/
theorem ancestryIn_sublist (definitions : List TypeDefinition) (name : String) :
    (ancestryIn definitions name).Sublist (definitions.map (·.name)) := by
  induction definitions generalizing name with
  | nil => exact .refl []
  | cons definition older ih =>
    rw [ancestryIn, List.map_cons]
    split
    · rename_i same
      rw [same]
      refine .cons_cons name ?_
      split
      · exact ih _
      · exact List.nil_sublist _
    · exact (ih name).cons _

theorem ancestryIn_known {definitions : List TypeDefinition}
    (member : ancestor ∈ ancestryIn definitions name) :
    ancestor ∈ definitions.map (·.name) :=
  (ancestryIn_sublist definitions name).subset member

/-- The newest class is no ancestor of older ones. -/
theorem ancestryIn_cons_of_known {older : List TypeDefinition}
    (fresh : definition.name ∉ older.map (·.name)) (known : name ∈ older.map (·.name)) :
    ancestryIn (definition :: older) name = ancestryIn older name := by
  have other : definition.name ≠ name := fun same => fresh (same ▸ known)
  rw [ancestryIn, if_neg other]

/-- The ancestors of an ancestor are the last of one's own. -/
theorem ancestryIn_suffix {definitions : List TypeDefinition}
    (distinct : (definitions.map (·.name)).Nodup)
    (member : ancestor ∈ ancestryIn definitions name) :
    ancestryIn definitions ancestor <:+ ancestryIn definitions name := by
  induction definitions generalizing name with
  | nil => cases member
  | cons definition older ih =>
    obtain ⟨fresh, distinct⟩ := List.nodup_cons.mp distinct
    rw [ancestryIn] at member
    split at member
    · rename_i same
      rcases List.mem_cons.mp member with rfl | above
      · exact List.suffix_refl _
      · split at above
        · rename_i parent found
          have known := ancestryIn_known above
          rw [ancestryIn_cons_of_known fresh known, ancestryIn, if_pos same, found]
          exact (ih distinct above).trans (List.suffix_cons _ _)
        · cases above
    · rename_i other
      rw [ancestryIn_cons_of_known fresh (ancestryIn_known member), ancestryIn, if_neg other]
      exact ih distinct member

/-- A class with ancestors is the first of them. -/
theorem ancestryIn_head {definitions : List TypeDefinition}
    (member : ancestor ∈ ancestryIn definitions name) :
    ∃ above, ancestryIn definitions name = name :: above := by
  induction definitions with
  | nil => cases member
  | cons definition older ih =>
    rw [ancestryIn] at member ⊢
    split
    · exact ⟨_, rfl⟩
    · rename_i other
      rw [if_neg other] at member
      exact ih member

theorem contains_iff {hierarchy : Hierarchy} :
    hierarchy.contains name = true ↔ name ∈ hierarchy.definitions.map (·.name) := by
  simp [contains, find?]

theorem isSubtype_iff {hierarchy : Hierarchy} :
    hierarchy.isSubtype name ancestor = true ↔ ancestor ∈ hierarchy.ancestry name := by
  rw [isSubtype, List.contains_iff_mem]

theorem isSubtype_self {hierarchy : Hierarchy} (known : hierarchy.isSubtype name ancestor = true) :
    hierarchy.isSubtype name name = true := by
  rw [isSubtype_iff] at known ⊢
  obtain ⟨above, starts⟩ := ancestryIn_head known
  rw [ancestry, starts]
  exact List.mem_cons_self

theorem Distinct.isSubtype_trans {hierarchy : Hierarchy} (distinct : hierarchy.Distinct)
    (lower : hierarchy.isSubtype name middle = true)
    (upper : hierarchy.isSubtype middle top = true) : hierarchy.isSubtype name top = true := by
  rw [isSubtype_iff] at *
  exact (ancestryIn_suffix distinct lower).subset upper

private theorem mem_ancestryIn_self {definitions : List TypeDefinition}
    (known : name ∈ definitions.map (·.name)) : name ∈ ancestryIn definitions name := by
  induction definitions with
  | nil => cases known
  | cons definition older ih =>
    rw [ancestryIn]
    split
    · exact List.mem_cons_self
    · rename_i other
      exact ih ((List.mem_cons.mp known).resolve_left (Ne.symm other))

/-- A proper subtype has more ancestors than its supertype. -/
theorem Distinct.ancestry_lt {hierarchy : Hierarchy} (distinct : hierarchy.Distinct)
    (lower : hierarchy.isSubtype name ancestor = true) (different : name ≠ ancestor) :
    (hierarchy.ancestry ancestor).length < (hierarchy.ancestry name).length := by
  rw [isSubtype_iff] at lower
  have tail := ancestryIn_suffix distinct lower
  refine lt_of_le_of_ne tail.length_le fun same => different ?_
  obtain ⟨above, starts⟩ := ancestryIn_head lower
  obtain ⟨beyond, begins⟩ := ancestryIn_head (mem_ancestryIn_self (ancestryIn_known lower))
  have whole := tail.eq_of_length same
  rw [starts, begins] at whole
  exact (List.cons.inj whole).1.symm

theorem Distinct.isSubtype_antisymm {hierarchy : Hierarchy} (distinct : hierarchy.Distinct)
    (lower : hierarchy.isSubtype name other = true)
    (upper : hierarchy.isSubtype other name = true) : name = other := by
  by_contra different
  have shorter := distinct.ancestry_lt lower different
  have longer := distinct.ancestry_lt upper (Ne.symm different)
  omega

theorem Distinct.register {hierarchy : Hierarchy} (distinct : hierarchy.Distinct)
    (ran : hierarchy.register name parent? = .ok next) : next.Distinct := by
  unfold Hierarchy.register at ran
  split at ran
  · cases ran
  · split at ran
    · cases ran
    · rename_i unknown
      cases ran
      exact List.nodup_cons.mpr ⟨fun taken => unknown (contains_iff.mpr taken), distinct⟩

/-- Registration adds one class. -/
theorem contains_register {hierarchy : Hierarchy}
    (ran : hierarchy.register name parent? = .ok next) :
    next.contains other = true ↔ other = name ∨ hierarchy.contains other = true := by
  unfold register at ran
  split at ran
  · cases ran
  · split at ran
    · cases ran
    · cases ran
      simp [contains_iff]

/-- A registered class is its own nearest ancestor. -/
theorem mem_ancestry_self {hierarchy : Hierarchy} (known : hierarchy.contains name = true) :
    name ∈ hierarchy.ancestry name :=
  mem_ancestryIn_self (contains_iff.mp known)

end Hierarchy

namespace Catalog

/-- The catalogs that declarations lead to from an empty one. A declaration that fails leaves the
catalog as it was. -/
inductive Declared : Catalog → Prop where
  | empty (generation : Nat) : Declared (.empty generation)
  | type (before : Declared catalog) (ran : catalog.declareType name parent? = .ok next) :
    Declared next
  | index (before : Declared catalog)
    (ran : catalog.declareIndex name typeName columns = .ok next) : Declared next

theorem declareType_ok {catalog : Catalog}
    (ran : catalog.declareType name parent? = .ok next) :
    catalog.hierarchy.register name parent? = .ok next.hierarchy ∧
      next.indexes = catalog.indexes ++ [defaultIndex name] := by
  cases registered : catalog.hierarchy.register name parent? with
  | error failure => simp [declareType, registered, Except.map] at ran
  | ok hierarchy =>
    simp only [declareType, registered, Except.map, Except.ok.injEq] at ran
    rw [← ran]
    exact ⟨rfl, rfl⟩

theorem declareIndex_ok {catalog : Catalog}
    (ran : catalog.declareIndex name typeName columns = .ok next) :
    next = { catalog with indexes := catalog.indexes ++ [⟨name, typeName, columns⟩] } := by
  unfold declareIndex at ran
  repeat' split at ran
  all_goals cases ran
  rfl

theorem Declared.distinct (declared : Declared catalog) : catalog.hierarchy.Distinct := by
  induction declared with
  | empty generation => exact List.nodup_nil
  | type _ ran ih => exact ih.register (declareType_ok ran).1
  | index _ ran ih =>
    rw [declareIndex_ok ran]
    exact ih

/-- Every registered class has an index declared on itself. -/
theorem Declared.indexesOn_ne_nil (declared : Declared catalog)
    (known : catalog.hierarchy.contains typeName = true) : catalog.indexesOn typeName ≠ [] := by
  induction declared with
  | empty generation => cases known
  | @type before name parent? next declared ran ih =>
    obtain ⟨registered, added⟩ := declareType_ok ran
    rw [indexesOn, added, List.filter_append]
    rcases (Hierarchy.contains_register registered).mp known with rfl | older
    · simp [defaultIndex]
    · exact List.append_ne_nil_of_left_ne_nil (ih older) _
  | index _ ran ih =>
    obtain rfl := declareIndex_ok ran
    rw [indexesOn, List.filter_append]
    exact List.append_ne_nil_of_left_ne_nil (ih known) _

/-! ## Searches -/

theorem mem_indexesFor_iff {catalog : Catalog} : index ∈ catalog.indexesFor typeName ↔
    index ∈ catalog.indexes ∧ catalog.canScan index typeName = true := by
  simp only [indexesFor, indexesOn, List.mem_flatMap, List.mem_filter, beq_iff_eq, canScan,
    Hierarchy.isSubtype_iff]
  constructor
  · rintro ⟨_, above, declared, rfl⟩
    exact ⟨declared, above⟩
  · rintro ⟨declared, above⟩
    exact ⟨_, above, declared, rfl⟩

theorem canScan_of_mem_indexesFor {catalog : Catalog}
    (member : index ∈ catalog.indexesFor typeName) : catalog.canScan index typeName = true :=
  (mem_indexesFor_iff.mp member).2

theorem mem_of_scanIndex? {catalog : Catalog} (found : catalog.scanIndex? typeName = some index) :
    index ∈ catalog.indexesFor typeName := by
  obtain ⟨ancestor, above, first⟩ := List.exists_of_findSome?_eq_some found
  exact List.mem_flatMap.mpr ⟨ancestor, above, List.mem_of_head? first⟩

theorem canScan_of_scanIndex? {catalog : Catalog}
    (found : catalog.scanIndex? typeName = some index) :
    catalog.canScan index typeName = true :=
  canScan_of_mem_indexesFor (mem_of_scanIndex? found)

/-- Every registered class can be scanned. -/
theorem Declared.scanIndex?_isSome (declared : Declared catalog)
    (known : catalog.hierarchy.contains typeName = true) :
    (catalog.scanIndex? typeName).isSome = true := by
  rw [scanIndex?, List.findSome?_isSome_iff]
  refine ⟨typeName, Hierarchy.mem_ancestry_self known, ?_⟩
  exact List.isSome_head?.mpr (declared.indexesOn_ne_nil known)

/-- An index found for an order is declared on the class or an ancestor and delivers exactly this
order in the direction found. -/
theorem orderIndex?_spec {catalog : Catalog} (found : catalog.orderIndex? typeName key = some use) :
    use.index ∈ catalog.indexesFor typeName ∧ key ≠ [] ∧
      ((use.direction = .ascending ∧ use.index.sortKey = key) ∨
        (use.direction = .descending ∧ use.index.sortKey = SortKey.reversed key)) := by
  unfold orderIndex? at found
  split at found
  · cases found
  · rename_i notEmpty
    obtain ⟨ancestor, above, own⟩ := List.exists_of_findSome?_eq_some found
    have keyed : key ≠ [] := by simpa using notEmpty
    rcases Option.or_eq_some_iff.mp own with forward | ⟨_, backward⟩
    · obtain ⟨index, matching, rfl⟩ := Option.map_eq_some_iff.mp forward
      exact ⟨List.mem_flatMap.mpr ⟨ancestor, above, List.mem_of_find?_eq_some matching⟩, keyed,
        .inl ⟨rfl, by simpa using List.find?_some matching⟩⟩
    · obtain ⟨index, matching, rfl⟩ := Option.map_eq_some_iff.mp backward
      exact ⟨List.mem_flatMap.mpr ⟨ancestor, above, List.mem_of_find?_eq_some matching⟩, keyed,
        .inr ⟨rfl, by simpa using List.find?_some matching⟩⟩

end Catalog
end ExtentPlanner
