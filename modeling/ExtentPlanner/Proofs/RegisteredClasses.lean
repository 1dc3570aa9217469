import ExtentPlanner.Proofs.ClassOrder
import ExtentPlanner.Proofs.Histories
import Mathlib.Order.Defs.Unbundled

/-! Class hierarchies as registration builds them. The ancestors of a class are found by looking up
one parent name after the other, and nothing remembers which names have been seen. Such a walk ends
because a class is registered after its parent: `ancestry_register` says that no later class gets
between a class and its ancestors, and `ancestry_eq` that a list of ancestors goes on where the
parent's begins. -/
namespace ExtentPlanner.Hierarchy

/-! ## Histories of registration -/

/-- The hierarchies that registration leads to from an empty one. -/
inductive Registered : Hierarchy → Prop where
  | empty : Registered .empty
  | register (before : Registered hierarchy)
    (ran : hierarchy.register name parent? = .ok next) : Registered next

variable {hierarchy next : Hierarchy}

/-- Attempts to register classes from left to right. -/
def registerAll (hierarchy : Hierarchy) (history : List TypeDefinition) : Hierarchy :=
  history.foldl (attempt fun before wanted => before.register wanted.name wanted.parent?) hierarchy

/-- A class is registered if its name is new and its parent is not. -/
theorem register_ok (ran : hierarchy.register name parent? = .ok next) :
    next.definitions = ⟨name, parent?⟩ :: hierarchy.definitions ∧
      name ∉ hierarchy.definitions.map (·.name) ∧
      ∀ parent, parent? = some parent → parent ∈ hierarchy.definitions.map (·.name) := by
  rw [register] at ran
  split at ran
  · cases ran
  rename_i noUnknown
  split at ran
  · cases ran
  rename_i unknown
  cases ran
  refine ⟨rfl, mt contains_iff.mpr unknown, ?_⟩
  rintro parent rfl
  by_contra foreign
  have missing : hierarchy.contains parent = false :=
    Bool.eq_false_iff.mpr (mt contains_iff.mp foreign)
  simp [Option.filter, missing] at noUnknown

theorem Registered.registerAll (registered : Registered hierarchy)
    (history : List TypeDefinition) : Registered (hierarchy.registerAll history) :=
  attempts_keep (fun _ _ _ before ran => before.register ran) registered history

theorem Registered.distinct (registered : Registered hierarchy) : hierarchy.Distinct := by
  induction registered with
  | empty => exact List.nodup_nil
  | register _ ran ih => exact ih.register ran

/-! ## Later registrations -/

/-- A later class changes neither the definition nor the ancestors of an older one. -/
theorem ancestry_register (ran : hierarchy.register name parent? = .ok next)
    (known : hierarchy.contains other = true) :
    next.ancestry other = hierarchy.ancestry other ∧ next.find? other = hierarchy.find? other := by
  obtain ⟨added, fresh, _⟩ := register_ok ran
  have older := contains_iff.mp known
  have different : name ≠ other := fun same => fresh (same ▸ older)
  constructor
  · rw [ancestry, added]
    exact ancestryIn_cons_of_known fresh older
  · rw [find?, added, List.find?_cons_of_neg (by simpa using different), find?]

theorem ancestry_registerAll (known : hierarchy.contains name = true)
    (history : List TypeDefinition) :
    (hierarchy.registerAll history).ancestry name = hierarchy.ancestry name := by
  let keeps (later : Hierarchy) : Prop :=
    later.contains name = true ∧ later.ancestry name = hierarchy.ancestry name
  have each : ∀ (before : Hierarchy) (wanted : TypeDefinition) (next : Hierarchy), keeps before →
      before.register wanted.name wanted.parent? = .ok next → keeps next := by
    rintro before wanted next ⟨known, same⟩ ran
    exact ⟨(contains_register ran).mpr (.inr known), (ancestry_register ran known).1.trans same⟩
  exact (attempts_keep each ⟨known, rfl⟩ history).2

/-! ## Walking up -/

/-- The parent that a class was registered with. -/
def parentOf? (hierarchy : Hierarchy) (name : String) : Option String :=
  (hierarchy.find? name).bind (·.parent?)

/-- Where a walk from `current?` stands after some steps, each of which looks up the parent of the
class reached. -/
def follow (hierarchy : Hierarchy) : Nat → Option String → Option String
  | 0, current? => current?
  | steps + 1, current? => hierarchy.follow steps (current?.bind hierarchy.parentOf?)

/-- The class that a walk from `name` starts with, if there is one of that name. -/
def start? (hierarchy : Hierarchy) (name : String) : Option String :=
  (hierarchy.find? name).map (·.name)

theorem start?_eq (hierarchy : Hierarchy) (name : String) :
    hierarchy.start? name = if hierarchy.contains name then some name else none := by
  rw [start?, contains]
  cases found : hierarchy.find? name with
  | none => rfl
  | some definition =>
    have same : definition.name = name := by simpa using List.find?_some found
    simp [same]

theorem ancestry_eq_nil_iff : hierarchy.ancestry name = [] ↔ hierarchy.contains name = false := by
  constructor
  · intro none
    by_contra known
    have itself := mem_ancestry_self (eq_true_of_ne_false known)
    rw [none] at itself
    cases itself
  · intro unknown
    refine List.eq_nil_iff_forall_not_mem.mpr fun ancestor member => ?_
    obtain ⟨above, starts⟩ := ancestryIn_head member
    have itself : name ∈ hierarchy.ancestry name := by
      rw [ancestry, starts]
      exact List.mem_cons_self
    rw [contains_iff.mpr (ancestryIn_known itself)] at unknown
    cases unknown

theorem follow_none (hierarchy : Hierarchy) (steps : Nat) : hierarchy.follow steps none = none := by
  induction steps with
  | zero => rfl
  | succ steps ih => exact ih

theorem contains_of_parentOf? (registered : Registered hierarchy)
    (child : hierarchy.parentOf? name = some parent) : hierarchy.contains parent = true := by
  induction registered with
  | empty => cases child
  | @register before newest parent? after _ ran ih =>
    obtain ⟨added, fresh, founded⟩ := register_ok ran
    refine (contains_register ran).mpr (.inr ?_)
    by_cases same : newest = name
    · rw [parentOf?, find?, added, List.find?_cons_of_pos (by simpa using same)] at child
      exact contains_iff.mpr (founded parent child)
    · rw [parentOf?, find?, added, List.find?_cons_of_neg (by simpa using same)] at child
      exact ih child

/-- The ancestors of a class are the class and the ancestors of its parent. -/
theorem ancestry_eq (registered : Registered hierarchy) (known : hierarchy.contains name = true) :
    hierarchy.ancestry name = name :: (hierarchy.parentOf? name).elim [] hierarchy.ancestry := by
  induction registered with
  | empty => cases known
  | @register before newest parent? after registered ran ih =>
    obtain ⟨added, fresh, founded⟩ := register_ok ran
    by_cases same : newest = name
    · have child : after.parentOf? name = parent? := by
        rw [parentOf?, find?, added, List.find?_cons_of_pos (by simpa using same)]
        rfl
      rw [child, ancestry, added, ancestryIn, if_pos same]
      cases parent? with
      | none => rfl
      | some parent =>
        have older := contains_iff.mpr (founded parent rfl)
        exact congrArg (name :: ·) (ancestry_register ran older).1.symm
    · have older := ((contains_register ran).mp known).resolve_left (Ne.symm same)
      obtain ⟨sameAncestors, sameDefinition⟩ := ancestry_register ran older
      have child : after.parentOf? name = before.parentOf? name := by
        rw [parentOf?, sameDefinition, parentOf?]
      rw [sameAncestors, child, ih older]
      cases above : before.parentOf? name with
      | none => rfl
      | some parent =>
        have parentOlder := contains_of_parentOf? registered above
        exact congrArg (name :: ·) (ancestry_register ran parentOlder).1.symm

/-- A walk meets the ancestors of a class in order and has ended after the last of them. -/
theorem follow_eq_getElem? (registered : Registered hierarchy) (name : String) (steps : Nat) :
    hierarchy.follow steps (hierarchy.start? name) = (hierarchy.ancestry name)[steps]? := by
  induction steps generalizing name with
  | zero =>
    rw [follow, start?_eq]
    split
    · rename_i known
      rw [ancestry_eq registered known, List.getElem?_cons_zero]
    · rename_i unknown
      rw [ancestry_eq_nil_iff.mpr (Bool.eq_false_iff.mpr unknown), List.getElem?_nil]
  | succ steps ih =>
    rw [follow, start?_eq]
    split
    · rename_i known
      rw [ancestry_eq registered known, List.getElem?_cons_succ, Option.bind_some]
      cases above : hierarchy.parentOf? name with
      | none => rw [follow_none, Option.elim_none, List.getElem?_nil]
      | some parent =>
        have begins := ih parent
        rw [start?_eq, if_pos (contains_of_parentOf? registered above)] at begins
        exact begins
    · rename_i unknown
      rw [Option.bind_none, follow_none,
        ancestry_eq_nil_iff.mpr (Bool.eq_false_iff.mpr unknown), List.getElem?_nil]

/-! ## The order of the classes -/

theorem isSubtype_known (lower : hierarchy.isSubtype name ancestor = true) :
    hierarchy.contains name = true ∧ hierarchy.contains ancestor = true := by
  have itself := isSubtype_iff.mp (isSubtype_self lower)
  exact ⟨contains_iff.mpr (ancestryIn_known itself),
    contains_iff.mpr (ancestryIn_known (isSubtype_iff.mp lower))⟩

/-- Of two supertypes of a class one is a supertype of the other, as the ancestors of either are the
last of those of the class. -/
theorem Distinct.isSubtype_comparable (distinct : hierarchy.Distinct)
    (toFirst : hierarchy.isSubtype name first = true)
    (toSecond : hierarchy.isSubtype name second = true) :
    hierarchy.isSubtype first second = true ∨ hierarchy.isSubtype second first = true := by
  have firstItself := mem_ancestry_self (isSubtype_known toFirst).2
  have secondItself := mem_ancestry_self (isSubtype_known toSecond).2
  simp only [isSubtype_iff] at *
  have firstLast := ancestryIn_suffix distinct toFirst
  have secondLast := ancestryIn_suffix distinct toSecond
  rcases List.suffix_or_suffix_of_suffix firstLast secondLast with inside | inside
  · exact .inr (inside.subset firstItself)
  · exact .inl (inside.subset secondItself)

theorem Distinct.isPartialOrder (distinct : hierarchy.Distinct) :
    IsPartialOrder {name // hierarchy.contains name = true}
      fun lower upper => hierarchy.isSubtype lower.1 upper.1 = true where
  refl := by
    rintro ⟨name, known⟩
    exact isSubtype_iff.mpr (mem_ancestry_self known)
  trans := by
    intro lower middle upper toMiddle toUpper
    exact distinct.isSubtype_trans toMiddle toUpper
  antisymm := by
    intro lower upper up down
    exact Subtype.ext (distinct.isSubtype_antisymm up down)

/-- What is wanted of the classes of a hierarchy, of the walks among them and of their order. -/
structure Lawful (hierarchy : Hierarchy) : Prop where
  /-- Looking up parents meets the ancestors of a class in order. -/
  walked : ∀ name steps,
    hierarchy.follow steps (hierarchy.start? name) = (hierarchy.ancestry name)[steps]?
  /-- A walk has ended after as many steps as there are classes, if not before. -/
  ends : ∀ name steps, hierarchy.size ≤ steps →
    hierarchy.follow steps (hierarchy.start? name) = none
  empty_iff : ∀ name, hierarchy.ancestry name = [] ↔ hierarchy.contains name = false
  starts : ∀ name, hierarchy.contains name = true → (hierarchy.ancestry name).head? = some name
  distinct : ∀ name, (hierarchy.ancestry name).Nodup
  registered : ∀ name, ∀ ancestor ∈ hierarchy.ancestry name, hierarchy.contains ancestor = true
  order : IsPartialOrder {name // hierarchy.contains name = true}
    fun lower upper => hierarchy.isSubtype lower.1 upper.1 = true
  /-- Other names are neither subtypes nor supertypes. -/
  known : ∀ name ancestor, hierarchy.isSubtype name ancestor = true →
    hierarchy.contains name = true ∧ hierarchy.contains ancestor = true
  comparable : ∀ name first second, hierarchy.isSubtype name first = true →
    hierarchy.isSubtype name second = true →
      hierarchy.isSubtype first second = true ∨ hierarchy.isSubtype second first = true

theorem Registered.lawful (registered : Registered hierarchy) : hierarchy.Lawful where
  walked := follow_eq_getElem? registered
  ends := by
    intro name steps many
    have fewer := (ancestryIn_sublist hierarchy.definitions name).length_le
    rw [List.length_map] at fewer
    rw [follow_eq_getElem? registered]
    exact List.getElem?_eq_none (Nat.le_trans fewer many)
  empty_iff := fun _ => ancestry_eq_nil_iff
  starts := by
    intro name known
    rw [ancestry_eq registered known, List.head?_cons]
  distinct := fun name => (ancestryIn_sublist _ name).nodup registered.distinct
  registered := fun _ _ member => contains_iff.mpr (ancestryIn_known member)
  order := registered.distinct.isPartialOrder
  known := fun _ _ => isSubtype_known
  comparable := fun _ _ _ => registered.distinct.isSubtype_comparable

/-- Whatever classes have been registered, and whatever attempts have failed, every walk ends and
subtyping is an order in which the supertypes of a class form a chain. Nothing that is registered
later changes the ancestors of a class. -/
theorem registered_classes_lawful (history : List TypeDefinition) :
    (empty.registerAll history).Lawful ∧
      ∀ later name, (empty.registerAll history).contains name = true →
        (empty.registerAll (history ++ later)).ancestry name =
          (empty.registerAll history).ancestry name := by
  refine ⟨(Registered.empty.registerAll history).lawful, fun later name known => ?_⟩
  rw [registerAll, List.foldl_append]
  exact ancestry_registerAll known later

/-- A company's classes, with three attempts that fail: a class is its own parent, a parent is
unknown, a name is taken. -/
def companyHistory : List TypeDefinition :=
  [⟨"Loop", some "Loop"⟩, ⟨"Entity", none⟩, ⟨"Person", some "Entity"⟩, ⟨"Ghost", some "Spirit"⟩,
    ⟨"Employee", some "Person"⟩, ⟨"Person", none⟩, ⟨"Company", some "Entity"⟩]

/-- The walk from an employee ends after three classes, and a later class does not change it. -/
theorem registered_classes_lawful_company :
    (empty.registerAll companyHistory).ancestry "Employee" = ["Employee", "Person", "Entity"] ∧
      (empty.registerAll companyHistory).follow 3
        ((empty.registerAll companyHistory).start? "Employee") = none ∧
      (empty.registerAll (companyHistory ++ [⟨"Boss", some "Employee"⟩])).ancestry "Employee" =
        ["Employee", "Person", "Entity"] := by
  obtain ⟨lawful, kept⟩ := registered_classes_lawful companyHistory
  have ancestors : (empty.registerAll companyHistory).ancestry "Employee" =
      ["Employee", "Person", "Entity"] := by decide
  refine ⟨ancestors, ?_, ?_⟩
  · rw [lawful.walked, ancestors]
    rfl
  · rw [kept [⟨"Boss", some "Employee"⟩] "Employee" (by decide), ancestors]

end ExtentPlanner.Hierarchy
