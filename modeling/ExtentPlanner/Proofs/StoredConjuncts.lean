import ExtentPlanner.Condition.ConjunctTable

/-! What a table of conjuncts holds after any additions, those that failed included. Every stored
condition is a single conjunct that says something, kept under the set of extents it reads; this is
what later lets a conjunction in a plan be taken apart into the conditions it was made of. -/
namespace ExtentPlanner

/-- A condition that is no AND of others and not the literal TRUE. -/
structure Condition.IsConjunct (condition : Condition) : Prop where
  single : condition.conjuncts = [condition]
  notTrue : condition.isTrueLiteral = false

theorem Condition.single_of_mem_conjuncts {condition conjunct : Condition}
    (member : conjunct ∈ condition.conjuncts) : conjunct.conjuncts = [conjunct] := by
  induction condition with
  | and left right lefts rights =>
    rcases List.mem_append.mp member with onLeft | onRight
    · exact lefts onLeft
    · exact rights onRight
  | truth | compare | isType | or | not =>
    rw [List.mem_singleton.mp member]
    rfl

namespace ConjunctTable

/-- The tables that additions lead to, one after the other. A failed addition keeps what it had
stored before the failure. -/
inductive Filled : ConjunctTable → Prop where
  | empty : Filled .empty
  | add (filled : Filled table) (condition : Condition) : Filled (table.add condition).1

/-- Every group holds conjuncts that read exactly the extents of its key. -/
def Sorted (table : ConjunctTable) : Prop :=
  ∀ group ∈ table.groups, ∀ condition ∈ group.conditions,
    condition.IsConjunct ∧ condition.extentSet = .ok group.key

private theorem insertInto_groups (holds : ExtentSet → Condition → Prop)
    {groups : List ConjunctGroup}
    (before : ∀ group ∈ groups, ∀ stored ∈ group.conditions, holds group.key stored)
    (new : holds key condition) :
    ∀ group ∈ insertInto key condition groups, ∀ stored ∈ group.conditions,
      holds group.key stored := by
  induction groups with
  | nil =>
    intro group member stored inside
    rw [List.mem_singleton.mp member] at inside ⊢
    rw [List.mem_singleton.mp inside]
    exact new
  | cons head rest ih =>
    have ofHead := before head List.mem_cons_self
    have ofRest := fun group member => before group (List.mem_cons_of_mem _ member)
    rw [insertInto]
    split
    · rename_i same
      subst same
      intro group member stored inside
      rcases List.mem_cons.mp member with rfl | later
      · rcases List.mem_append.mp inside with old | added
        · exact ofHead stored old
        · rw [List.mem_singleton.mp added]
          exact new
      · exact ofRest group later stored inside
    · split
      · intro group member stored inside
        rcases List.mem_cons.mp member with rfl | later
        · rw [List.mem_singleton.mp inside]
          exact new
        · exact before group later stored inside
      · intro group member stored inside
        rcases List.mem_cons.mp member with rfl | later
        · exact ofHead stored inside
        · exact ih ofRest group later stored inside

/-- Whatever holds of stored conjuncts and of those that are added, with the keys of their groups,
holds of all that is stored afterwards, also where the addition stops midway. -/
theorem addConjuncts_groups {table : ConjunctTable} (holds : ExtentSet → Condition → Prop)
    {added : List Condition}
    (before : ∀ group ∈ table.groups, ∀ stored ∈ group.conditions, holds group.key stored)
    (new : ∀ condition ∈ added, condition.isTrueLiteral = false →
      ∀ key, condition.extentSet = .ok key → holds key condition) :
    ∀ group ∈ (table.addConjuncts added).1.groups, ∀ stored ∈ group.conditions,
      holds group.key stored := by
  induction added generalizing table with
  | nil => exact before
  | cons condition rest ih =>
    have ofRest := fun other member => new other (List.mem_cons_of_mem _ member)
    rw [addConjuncts]
    split
    · exact ih before ofRest
    · rename_i notTrue
      split
      · rename_i key reads
        have own := new condition List.mem_cons_self (by simpa using notTrue) key reads
        exact ih (insertInto_groups holds before own) ofRest
      · exact before

/-- However a table was filled, its groups are sorted by what their conjuncts read. -/
theorem Filled.sorted (filled : Filled table) : table.Sorted := by
  induction filled with
  | empty =>
    intro group member
    cases member
  | add _ condition ih =>
    exact addConjuncts_groups
      (fun key stored => stored.IsConjunct ∧ stored.extentSet = .ok key) ih
      fun _ member notTrue _ reads =>
        ⟨⟨Condition.single_of_mem_conjuncts member, notTrue⟩, reads⟩

theorem Filled.addAll (filled : Filled table) (conditions : List Condition) :
    Filled (table.addAll conditions).1 := by
  induction conditions generalizing table with
  | nil => exact filled
  | cons condition rest ih =>
    have first := filled.add condition
    rw [ConjunctTable.addAll]
    split
    · rename_i added same
      rw [same] at first
      exact ih first
    · rename_i added _ same
      rwa [same] at first

theorem Filled.isConjunct (filled : Filled table) (member : condition ∈ table.conditions) :
    condition.IsConjunct := by
  obtain ⟨group, inTable, inGroup⟩ := List.mem_flatMap.mp member
  exact (filled.sorted group inTable condition inGroup).1

end ConjunctTable

/-! ## Conjunctions in plans -/

namespace Condition

/-- The conditions that a filter is the conjunction of; none for the filter that is always true. -/
def filterConjuncts (filter : Condition) : List Condition :=
  filter.conjuncts.filter fun conjunct => !conjunct.isTrueLiteral

private theorem conjuncts_foldl (first : Condition) (rest : List Condition) :
    (rest.foldl and first).conjuncts = first.conjuncts ++ rest.flatMap conjuncts := by
  induction rest generalizing first with
  | nil => simp
  | cons condition rest ih =>
    rw [List.foldl_cons, ih, conjuncts, List.flatMap_cons, List.append_assoc]

/-- A conjunction has the conjuncts of what it is made of, in order; without any it is TRUE. -/
theorem conjuncts_conjunction {conditions : List Condition} (nonempty : conditions ≠ []) :
    (conjunction conditions).conjuncts = conditions.flatMap conjuncts := by
  cases conditions with
  | nil => exact absurd rfl nonempty
  | cons first rest => rw [conjunction, conjuncts_foldl, List.flatMap_cons]

/-- The filter made of conjuncts has exactly these conjuncts, in order. -/
theorem filterConjuncts_conjunction {conditions : List Condition}
    (each : ∀ condition ∈ conditions, condition.IsConjunct) :
    (conjunction conditions).filterConjuncts = conditions := by
  by_cases empty : conditions = []
  · rw [empty]
    rfl
  · have singles : conditions.flatMap conjuncts = conditions := by
      rw [List.flatMap_def, List.map_congr_left fun condition member =>
        (each condition member).single, ← List.flatMap_def, List.flatMap_singleton']
    rw [filterConjuncts, conjuncts_conjunction empty, singles, List.filter_eq_self]
    intro condition member
    simp [(each condition member).notTrue]

end Condition
end ExtentPlanner
