import ExtentPlanner.Proofs.ClassOrder
import ExtentPlanner.Visit.Narrowing
import Mathlib.Data.Finset.Max

/-! Dropping implied type assertions loses nothing. What is dropped follows from the declared class
of the extent or from an assertion that is kept: among the asserted classes below a dropped one
there is a narrowest, and its first assertion is never dropped. `Thins` says what becomes of each
condition; everything about the conditions that are kept is read off it. -/
namespace ExtentPlanner.DeclaredExtent

/-- Whether a condition asserts a class of every object that is of the declared class and passes
the `kept` assertions. -/
def Implied (declared : DeclaredExtent) (kept : List Condition) (condition : Condition) : Prop :=
  ∃ target, condition.assertedType? declared.extent = some target ∧
    (declared.implies target = true ∨
      ∃ other ∈ kept, ∃ narrower, other.assertedType? declared.extent = some narrower ∧
        declared.hierarchy.isSubtype narrower target = true)

/-- The classes that conditions assert of the extent's objects by name, in order. -/
def asserted (declared : DeclaredExtent) (conditions : List Condition) : List String :=
  conditions.filterMap (·.assertedType? declared.extent)

/-- What becomes of each condition when those that follow from the rest are dropped. -/
inductive Thins (declared : DeclaredExtent) (narrowings : List String) :
    List String → List Condition → List Condition → Prop where
  | nil : Thins declared narrowings earlier [] []
  | other (silent : condition.assertedType? declared.extent = none)
    (later : Thins declared narrowings earlier rest kept) :
    Thins declared narrowings earlier (condition :: rest) (condition :: kept)
  | implied (asserts : condition.assertedType? declared.extent = some target)
    (implied : declared.implies target = true)
    (later : Thins declared narrowings earlier rest kept) :
    Thins declared narrowings earlier (condition :: rest) kept
  | redundant (asserts : condition.assertedType? declared.extent = some target)
    (narrowed : declared.isNarrowedBy target = true)
    (redundant : declared.isRedundant narrowings earlier target = true)
    (later : Thins declared narrowings (target :: earlier) rest kept) :
    Thins declared narrowings earlier (condition :: rest) kept
  | needed (asserts : condition.assertedType? declared.extent = some target)
    (narrowed : declared.isNarrowedBy target = true)
    (needed : declared.isRedundant narrowings earlier target = false)
    (later : Thins declared narrowings (target :: earlier) rest kept) :
    Thins declared narrowings earlier (condition :: rest) (condition :: kept)
  | impossible (asserts : condition.assertedType? declared.extent = some target)
    (notImplied : declared.implies target = false)
    (notNarrowed : declared.isNarrowedBy target = false)
    (later : Thins declared narrowings earlier rest kept) :
    Thins declared narrowings earlier (condition :: rest) (condition :: kept)

variable {declared : DeclaredExtent} {conditions kept : List Condition}
  {narrowings earlier : List String} {target : String}

theorem mem_asserted_iff : target ∈ declared.asserted conditions ↔
    ∃ condition ∈ conditions, condition.assertedType? declared.extent = some target :=
  List.mem_filterMap

theorem asserted_of_silent (silent : condition.assertedType? declared.extent = none) :
    declared.asserted (condition :: conditions) = declared.asserted conditions :=
  List.filterMap_cons_none silent

theorem asserted_of_asserts (asserts : condition.assertedType? declared.extent = some target) :
    declared.asserted (condition :: conditions) = target :: declared.asserted conditions :=
  List.filterMap_cons_some asserts

theorem narrowings_eq (conditions : List Condition) : declared.narrowings conditions =
    (declared.asserted conditions).filter declared.isNarrowedBy := rfl

theorem mem_narrowings : target ∈ declared.narrowings conditions ↔
    target ∈ declared.asserted conditions ∧ declared.isNarrowedBy target = true :=
  List.mem_filter

theorem isNarrowedBy_iff : declared.isNarrowedBy target = true ↔
    declared.implies target = false ∧
      declared.hierarchy.isSubtype target declared.typeName = true := by
  rw [isNarrowedBy, Bool.and_eq_true, Bool.not_eq_true']

theorem isRedundant_eq_false_iff : declared.isRedundant narrowings earlier target = false ↔
    target ∉ earlier ∧ ∀ other ∈ narrowings, other ≠ target →
      declared.hierarchy.isSubtype other target = false := by
  simp [isRedundant]

/-! ## One pass over the conditions -/

theorem dropImpliedFrom_thins (declared : DeclaredExtent) (narrowings earlier : List String)
    (conditions : List Condition) : Thins declared narrowings earlier conditions
      (declared.dropImpliedFrom narrowings earlier conditions) := by
  induction conditions generalizing earlier with
  | nil => exact .nil
  | cons condition rest ih =>
    rw [dropImpliedFrom]
    split
    · rename_i silent
      exact .other silent (ih _)
    · rename_i target asserts
      split
      · rename_i implied
        exact .implied asserts implied (ih _)
      · rename_i notImplied
        split
        · rename_i narrowed
          dsimp only
          split
          · rename_i redundant
            exact .redundant asserts narrowed redundant (ih _)
          · rename_i needed
            exact .needed asserts narrowed (eq_false_of_ne_true needed) (ih _)
        · rename_i notNarrowed
          exact .impossible asserts (eq_false_of_ne_true notImplied)
            (eq_false_of_ne_true notNarrowed) (ih _)

theorem dropImplied_thins (declared : DeclaredExtent) (conditions : List Condition) :
    Thins declared (declared.narrowings conditions) [] conditions
      (declared.dropImplied conditions) :=
  declared.dropImpliedFrom_thins _ _ _

/-- Nothing is lost that is read off conditions other than assertions. -/
theorem Thins.filterMap_eq {α : Type} {give? : Condition → Option α}
    (thins : Thins declared narrowings earlier conditions kept)
    (ignores : ∀ condition target, condition.assertedType? declared.extent = some target →
      give? condition = none) : kept.filterMap give? = conditions.filterMap give? := by
  induction thins with
  | nil => rfl
  | other _ _ ih | needed _ _ _ _ ih | impossible _ _ _ _ ih =>
    rw [List.filterMap_cons, List.filterMap_cons, ih]
  | implied asserts _ _ ih | redundant asserts _ _ _ ih =>
    rw [List.filterMap_cons_none (ignores _ _ asserts), ih]

/-! ## What is dropped -/

/-- Whether a condition asserts the declared class, one of its ancestors or a part of it. -/
private def Droppable (declared : DeclaredExtent) (condition : Condition) : Prop :=
  ∃ target, condition.assertedType? declared.extent = some target ∧
    (declared.implies target = true ∨ declared.isNarrowedBy target = true)

/-- Conditions are what is kept of them together with droppable ones. -/
private def Parted (declared : DeclaredExtent) (conditions kept : List Condition) : Prop :=
  ∃ dropped, conditions.Perm (kept ++ dropped) ∧
    ∀ condition ∈ dropped, declared.Droppable condition

private theorem Parted.keep (parts : declared.Parted conditions kept) (condition : Condition) :
    declared.Parted (condition :: conditions) (condition :: kept) := by
  obtain ⟨dropped, parts, each⟩ := parts
  exact ⟨dropped, parts.cons condition, each⟩

private theorem Parted.drop (parts : declared.Parted conditions kept)
    (droppable : declared.Droppable condition) :
    declared.Parted (condition :: conditions) kept := by
  obtain ⟨dropped, parts, each⟩ := parts
  exact ⟨condition :: dropped, (parts.cons condition).trans List.perm_middle.symm,
    List.forall_mem_cons.mpr ⟨droppable, each⟩⟩

private theorem Thins.parted (thins : Thins declared narrowings earlier conditions kept) :
    declared.Parted conditions kept := by
  induction thins with
  | nil => exact ⟨[], .refl _, by simp⟩
  | other _ _ ih | needed _ _ _ _ ih | impossible _ _ _ _ ih => exact ih.keep _
  | implied asserts implied _ ih => exact ih.drop ⟨_, asserts, .inl implied⟩
  | redundant asserts narrowed _ _ ih => exact ih.drop ⟨_, asserts, .inr narrowed⟩

/-- The first assertion of a class that no other one narrows further remains. -/
private theorem Thins.keeps_narrowest (thins : Thins declared narrowings earlier conditions kept)
    (unseen : target ∉ earlier) (narrowed : declared.isNarrowedBy target = true)
    (narrowest : ∀ other ∈ narrowings, other ≠ target →
      declared.hierarchy.isSubtype other target = false)
    (member : target ∈ declared.asserted conditions) : target ∈ declared.asserted kept := by
  induction thins with
  | nil => cases member
  | other silent _ ih =>
    rw [asserted_of_silent silent] at member ⊢
    exact ih unseen member
  | implied asserts implied _ ih =>
    rw [asserted_of_asserts asserts] at member
    rcases List.mem_cons.mp member with rfl | inRest
    · rw [(isNarrowedBy_iff.mp narrowed).1] at implied
      cases implied
    · exact ih unseen inRest
  | redundant asserts _ redundant _ ih =>
    rw [asserted_of_asserts asserts] at member
    rcases List.eq_or_ne_mem_of_mem member with rfl | ⟨different, inRest⟩
    · rw [isRedundant_eq_false_iff.mpr ⟨unseen, narrowest⟩] at redundant
      cases redundant
    · exact ih (List.not_mem_cons_of_ne_of_not_mem different unseen) inRest
  | needed asserts _ _ _ ih =>
    rw [asserted_of_asserts asserts] at member ⊢
    rcases List.eq_or_ne_mem_of_mem member with rfl | ⟨different, inRest⟩
    · exact List.mem_cons_self
    · have stillUnseen := List.not_mem_cons_of_ne_of_not_mem different unseen
      exact List.mem_cons_of_mem _ (ih stillUnseen inRest)
  | impossible asserts _ notNarrowed _ ih =>
    rw [asserted_of_asserts asserts] at member ⊢
    rcases List.mem_cons.mp member with rfl | inRest
    · rw [narrowed] at notNarrowed
      cases notNarrowed
    · exact List.mem_cons_of_mem _ (ih unseen inRest)

/-- Below every asserted class there is a narrowest one among those asserted. -/
private theorem exists_narrowest (distinct : declared.hierarchy.Distinct)
    (member : target ∈ narrowings) (known : declared.hierarchy.isSubtype target target = true) :
    ∃ narrowest ∈ narrowings, declared.hierarchy.isSubtype narrowest target = true ∧
      ∀ other ∈ narrowings, other ≠ narrowest →
        declared.hierarchy.isSubtype other narrowest = false := by
  let below := (narrowings.filter (declared.hierarchy.isSubtype · target)).toFinset
  have mem_below : ∀ name, name ∈ below ↔
      name ∈ narrowings ∧ declared.hierarchy.isSubtype name target = true := by
    intro name
    simp [below]
  obtain ⟨narrowest, inside, longest⟩ := below.exists_max_image
    (fun name => (declared.hierarchy.ancestry name).length)
    ⟨target, (mem_below _).mpr ⟨member, known⟩⟩
  obtain ⟨asserted, lower⟩ := (mem_below _).mp inside
  refine ⟨narrowest, asserted, lower, fun other another different => ?_⟩
  by_contra narrower
  rw [Bool.not_eq_false] at narrower
  have longer := distinct.ancestry_lt narrower different
  have bounded := longest other
    ((mem_below _).mpr ⟨another, distinct.isSubtype_trans narrower lower⟩)
  omega

/-- Dropping implied assertions parts the conditions into what remains and what follows from the
declared class or from an assertion that remains. -/
theorem dropImplied_parts (declared : DeclaredExtent) (distinct : declared.hierarchy.Distinct)
    (conditions : List Condition) :
    ∃ dropped, conditions.Perm (declared.dropImplied conditions ++ dropped) ∧
      ∀ condition ∈ dropped, declared.Implied (declared.dropImplied conditions) condition := by
  have thins := declared.dropImplied_thins conditions
  obtain ⟨dropped, parts, each⟩ := thins.parted
  refine ⟨dropped, parts, fun condition member => ?_⟩
  obtain ⟨target, asserts, implied | narrowed⟩ := each condition member
  · exact ⟨target, asserts, .inl implied⟩
  · have listed : target ∈ declared.asserted conditions := mem_asserted_iff.mpr
      ⟨condition, parts.mem_iff.mpr (List.mem_append_right _ member), asserts⟩
    have known := Hierarchy.isSubtype_self (isNarrowedBy_iff.mp narrowed).2
    obtain ⟨narrowest, inside, lower, alone⟩ :=
      exists_narrowest distinct (mem_narrowings.mpr ⟨listed, narrowed⟩) known
    obtain ⟨asserted, narrows⟩ := mem_narrowings.mp inside
    obtain ⟨kept, remains, keeps⟩ := mem_asserted_iff.mp
      (thins.keeps_narrowest List.not_mem_nil narrows alone asserted)
    exact ⟨target, asserts, .inr ⟨kept, remains, narrowest, keeps, lower⟩⟩

end ExtentPlanner.DeclaredExtent
