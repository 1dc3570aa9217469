import ExtentPlanner.Proofs.DeclaredNames
import ExtentPlanner.Proofs.RegisteredClasses
import ExtentPlanner.Proofs.VisitEvaluation

/-! What the type assertions of a visit come to. Dropping those that follow from the rest changes
nothing for the objects of the declared class: a subtype passes the assertions that are kept exactly
if it passes all. What is kept is as short as it can be, because the narrowest assertions are the
only ones that survive and no two of them are comparable; so a second pass finds nothing to drop.

An assertion that neither widens nor narrows the declared class can never hold. The two classes are
only compared, but that is enough: a class below both would have two supertypes that do not form a
chain. -/
namespace ExtentPlanner

theorem Condition.assertedType?_eq_some_iff {condition : Condition} :
    condition.assertedType? extent = some target ↔
      condition = .isType (.object extent) (.named target) := by
  cases condition with
  | isType object asserted =>
    by_cases own : object = .object extent
    · cases asserted <;> simp [assertedType?, assertedTarget?, own]
    · simp [assertedType?, assertedTarget?, own]
  | truth | compare | and | or | not => simp [assertedType?, assertedTarget?]

namespace DeclaredExtent

/-- Whether objects of a class pass every assertion among the conditions that names a class. -/
def Passes (declared : DeclaredExtent) (conditions : List Condition) (name : String) : Prop :=
  ∀ target ∈ declared.asserted conditions, declared.hierarchy.isSubtype name target = true

/-- No registered class is a subtype of the declared class and of this one. -/
def Impossible (declared : DeclaredExtent) (target : String) : Prop :=
  ∀ name, declared.hierarchy.contains name = true →
    ¬(declared.hierarchy.isSubtype name declared.typeName = true ∧
      declared.hierarchy.isSubtype name target = true)

/-- What conditions become when the assertions that follow from the rest are dropped. -/
structure Simplified (declared : DeclaredExtent) (before after : List Condition) : Prop where
  /-- Conditions are dropped and not moved. -/
  sublist : after.Sublist before
  /-- Only assertions that name a class are dropped. -/
  others : after.filter (fun condition => (condition.assertedType? declared.extent).isNone) =
    before.filter fun condition => (condition.assertedType? declared.extent).isNone
  /-- The subtypes of the declared class that pass are the same. -/
  passes : ∀ name, declared.hierarchy.isSubtype name declared.typeName = true →
    (declared.Passes after name ↔ declared.Passes before name)
  /-- No assertion that can hold follows from the declared class or from another assertion. -/
  independent : ∀ front target back, declared.asserted after = front ++ target :: back →
    ¬declared.Impossible target → declared.implies target = false ∧
      ∀ other ∈ front ++ back, declared.hierarchy.isSubtype other target = false

variable {declared : DeclaredExtent} {conditions kept : List Condition}
  {narrowings earlier : List String} {target : String}

/-! ## Assertions that cannot hold -/

/-- Classes with a common subtype are comparable, so that only classes on different branches of the
hierarchy exclude each other. -/
theorem impossible_iff (distinct : declared.hierarchy.Distinct)
    (known : declared.hierarchy.contains declared.typeName = true) :
    declared.Impossible target ↔
      declared.implies target = false ∧ declared.isNarrowedBy target = false := by
  constructor
  · intro impossible
    have apart : declared.implies target = false := by
      refine Bool.eq_false_iff.mpr fun implied => impossible declared.typeName known ⟨?_, implied⟩
      exact Hierarchy.isSubtype_self implied
    refine ⟨apart, Bool.eq_false_iff.mpr fun narrowed => ?_⟩
    have lower := (isNarrowedBy_iff.mp narrowed).2
    exact impossible target (Hierarchy.isSubtype_known lower).1
      ⟨lower, Hierarchy.isSubtype_self lower⟩
  · rintro ⟨notImplied, notNarrowed⟩ name _ ⟨toDeclared, toTarget⟩
    rcases distinct.isSubtype_comparable toDeclared toTarget with upper | lower
    · cases notImplied.symm.trans upper
    · cases notNarrowed.symm.trans (isNarrowedBy_iff.mpr ⟨notImplied, lower⟩)

theorem excludes_iff (distinct : declared.hierarchy.Distinct)
    (known : declared.hierarchy.contains declared.typeName = true) :
    declared.excludes condition = true ↔
      ∃ target, condition.assertedType? declared.extent = some target ∧
        declared.Impossible target := by
  rw [excludes]
  split
  · rename_i target asserts
    simp [asserts, impossible_iff distinct known]
  · rename_i silent
    simp [silent]

/-! ## What is kept -/

theorem Thins.sublist (thins : Thins declared narrowings earlier conditions kept) :
    kept.Sublist conditions := by
  induction thins with
  | nil => exact .refl []
  | other _ _ ih | needed _ _ _ _ ih | impossible _ _ _ _ ih => exact ih.cons_cons _
  | implied _ _ _ ih | redundant _ _ _ _ ih => exact ih.cons _

theorem asserted_subset (sublist : kept.Sublist conditions) :
    declared.asserted kept ⊆ declared.asserted conditions :=
  (sublist.filterMap _).subset

theorem isRedundant_of_cons
    (fresh : declared.isRedundant narrowings (first :: earlier) target = false) :
    declared.isRedundant narrowings earlier target = false := by
  obtain ⟨unseen, narrowest⟩ := isRedundant_eq_false_iff.mp fresh
  exact isRedundant_eq_false_iff.mpr ⟨fun seen => unseen (List.mem_cons_of_mem _ seen), narrowest⟩

/-- An assertion that is kept narrows the declared class and does not follow from the rest, or it
can never hold. -/
theorem Thins.kept_asserts (thins : Thins declared narrowings earlier conditions kept)
    (member : target ∈ declared.asserted kept) :
    declared.isNarrowedBy target = true ∧ declared.isRedundant narrowings earlier target = false ∨
      declared.implies target = false ∧ declared.isNarrowedBy target = false := by
  induction thins with
  | nil => cases member
  | other silent _ ih =>
    rw [asserted_of_silent silent] at member
    exact ih member
  | implied _ _ _ ih => exact ih member
  | redundant _ _ _ _ ih => exact (ih member).imp_left (.imp_right isRedundant_of_cons)
  | needed asserts narrowed needed _ ih =>
    rw [asserted_of_asserts asserts] at member
    rcases List.mem_cons.mp member with rfl | inRest
    · exact .inl ⟨narrowed, needed⟩
    · exact (ih inRest).imp_left (.imp_right isRedundant_of_cons)
  | impossible asserts notImplied notNarrowed _ ih =>
    rw [asserted_of_asserts asserts] at member
    rcases List.mem_cons.mp member with rfl | inRest
    · exact .inr ⟨notImplied, notNarrowed⟩
    · exact ih inRest

theorem Thins.not_implied (thins : Thins declared narrowings earlier conditions kept)
    (member : target ∈ declared.asserted kept) : declared.implies target = false := by
  rcases thins.kept_asserts member with ⟨narrowed, _⟩ | ⟨notImplied, _⟩
  · exact (isNarrowedBy_iff.mp narrowed).1
  · exact notImplied

/-- A narrowing that is kept has not been passed before, and none is narrower. -/
theorem Thins.narrowest (thins : Thins declared narrowings earlier conditions kept)
    (member : target ∈ declared.narrowings kept) :
    target ∉ earlier ∧ ∀ other ∈ narrowings, other ≠ target →
      declared.hierarchy.isSubtype other target = false := by
  obtain ⟨asserted, narrowed⟩ := mem_narrowings.mp member
  rcases thins.kept_asserts asserted with ⟨_, needed⟩ | ⟨_, notNarrowed⟩
  · exact isRedundant_eq_false_iff.mp needed
  · cases narrowed.symm.trans notNarrowed

/-- No class that narrows the declared one is asserted twice in what is kept. -/
theorem Thins.narrowings_nodup (thins : Thins declared narrowings earlier conditions kept) :
    (declared.narrowings kept).Nodup := by
  induction thins with
  | nil => exact List.nodup_nil
  | other silent _ ih =>
    rw [narrowings_eq, asserted_of_silent silent]
    exact ih
  | implied _ _ _ ih | redundant _ _ _ _ ih => exact ih
  | needed asserts narrowed _ later ih =>
    rw [narrowings_eq, asserted_of_asserts asserts, List.filter_cons_of_pos narrowed]
    exact List.nodup_cons.mpr ⟨fun again => (later.narrowest again).1 List.mem_cons_self, ih⟩
  | impossible asserts _ notNarrowed _ ih =>
    rw [narrowings_eq, asserted_of_asserts asserts, List.filter_cons_of_neg (by simp [notNarrowed])]
    exact ih

/-- Nothing is dropped from conditions of which none follows from the rest. -/
theorem Thins.eq_self (thins : Thins declared narrowings earlier conditions kept)
    (notImplied : ∀ target ∈ declared.asserted conditions, declared.implies target = false)
    (distinct : (declared.narrowings conditions).Nodup)
    (unseen : ∀ target ∈ declared.narrowings conditions, target ∉ earlier)
    (narrowest : ∀ target ∈ declared.narrowings conditions, ∀ other ∈ narrowings,
      other ≠ target → declared.hierarchy.isSubtype other target = false) :
    kept = conditions := by
  simp only [narrowings_eq] at distinct unseen narrowest
  -- The narrowings of the whole list stay fixed while those passed before grow, so `unseen` has to
  -- be carried on from the assertions being apart.
  induction thins with
  | nil => rfl
  | other silent _ ih =>
    rw [asserted_of_silent silent] at notImplied distinct unseen narrowest
    rw [ih notImplied distinct unseen narrowest]
  | implied asserts implied =>
    rw [asserted_of_asserts asserts] at notImplied
    cases implied.symm.trans (notImplied _ List.mem_cons_self)
  | redundant asserts narrowed redundant =>
    rw [asserted_of_asserts asserts, List.filter_cons_of_pos narrowed] at unseen narrowest
    have needed := isRedundant_eq_false_iff.mpr
      ⟨unseen _ List.mem_cons_self, narrowest _ List.mem_cons_self⟩
    cases redundant.symm.trans needed
  | needed asserts narrowed _ _ ih =>
    rw [asserted_of_asserts asserts] at notImplied
    rw [asserted_of_asserts asserts, List.filter_cons_of_pos narrowed]
      at distinct unseen narrowest
    obtain ⟨fresh, distinct⟩ := List.nodup_cons.mp distinct
    rw [ih (List.forall_mem_cons.mp notImplied).2 distinct
      (fun other member => List.not_mem_cons_of_ne_of_not_mem
        (ne_of_mem_of_not_mem member fresh) (unseen other (List.mem_cons_of_mem _ member)))
      (List.forall_mem_cons.mp narrowest).2]
  | impossible asserts _ notNarrowed _ ih =>
    rw [asserted_of_asserts asserts] at notImplied
    rw [asserted_of_asserts asserts, List.filter_cons_of_neg (by simp [notNarrowed])]
      at distinct unseen narrowest
    rw [ih (List.forall_mem_cons.mp notImplied).2 distinct unseen narrowest]

theorem dropImplied_narrowest
    (member : target ∈ declared.narrowings (declared.dropImplied conditions))
    (listed : other ∈ declared.narrowings (declared.dropImplied conditions))
    (different : other ≠ target) : declared.hierarchy.isSubtype other target = false := by
  have thins := declared.dropImplied_thins conditions
  obtain ⟨asserted, narrowed⟩ := mem_narrowings.mp listed
  have given := mem_narrowings.mpr ⟨asserted_subset thins.sublist asserted, narrowed⟩
  exact (thins.narrowest member).2 other given different

/-- A second pass finds nothing to drop. -/
theorem dropImplied_dropImplied (declared : DeclaredExtent) (conditions : List Condition) :
    declared.dropImplied (declared.dropImplied conditions) = declared.dropImplied conditions := by
  have first := declared.dropImplied_thins conditions
  have second := declared.dropImplied_thins (declared.dropImplied conditions)
  exact second.eq_self (fun _ => first.not_implied) first.narrowings_nodup
    (fun _ _ => List.not_mem_nil) fun _ member _ => dropImplied_narrowest member

theorem dropImplied_independent (distinct : declared.hierarchy.Distinct)
    (known : declared.hierarchy.contains declared.typeName = true)
    (split : declared.asserted (declared.dropImplied conditions) = front ++ target :: back)
    (possible : ¬declared.Impossible target) :
    declared.implies target = false ∧
      ∀ other ∈ front ++ back, declared.hierarchy.isSubtype other target = false := by
  have thins := declared.dropImplied_thins conditions
  have listed : target ∈ declared.asserted (declared.dropImplied conditions) := by simp [split]
  have notImplied := thins.not_implied listed
  have narrowed : declared.isNarrowedBy target = true := by
    by_contra notNarrowed
    exact possible ((impossible_iff distinct known).mpr
      ⟨notImplied, eq_false_of_ne_true notNarrowed⟩)
  refine ⟨notImplied, fun other member => Bool.eq_false_iff.mpr fun lower => ?_⟩
  have otherListed : other ∈ declared.asserted (declared.dropImplied conditions) := by
    rw [split]
    exact List.perm_middle.mem_iff.mpr (List.mem_cons_of_mem _ member)
  have otherNarrowed : declared.isNarrowedBy other = true := isNarrowedBy_iff.mpr
    ⟨thins.not_implied otherListed, distinct.isSubtype_trans lower (isNarrowedBy_iff.mp narrowed).2⟩
  -- A class asserted twice would imply itself.
  have different : other ≠ target := by
    rintro rfl
    have twice := thins.narrowings_nodup
    rw [narrowings_eq, split, List.filter_append, List.filter_cons_of_pos narrowed,
      List.nodup_middle, List.nodup_cons, ← List.filter_append] at twice
    exact twice.1 (List.mem_filter.mpr ⟨member, narrowed⟩)
  have apart := dropImplied_narrowest (mem_narrowings.mpr ⟨listed, narrowed⟩)
    (mem_narrowings.mpr ⟨otherListed, otherNarrowed⟩) different
  cases lower.symm.trans apart

/-! ## What is dropped -/

/-- A subtype of the declared class that passes the assertions that are kept passes all. -/
theorem passes_dropImplied_iff (distinct : declared.hierarchy.Distinct)
    (lower : declared.hierarchy.isSubtype name declared.typeName = true) :
    declared.Passes (declared.dropImplied conditions) name ↔ declared.Passes conditions name := by
  have sublist := (declared.dropImplied_thins conditions).sublist
  refine ⟨fun passes target member => ?_, fun passes target member =>
    passes target (asserted_subset sublist member)⟩
  obtain ⟨condition, given, asserts⟩ := mem_asserted_iff.mp member
  obtain ⟨dropped, parts, each⟩ := declared.dropImplied_parts distinct conditions
  rcases List.mem_append.mp (parts.mem_iff.mp given) with stays | gone
  · exact passes target (mem_asserted_iff.mpr ⟨condition, stays, asserts⟩)
  · -- What has been dropped follows from the declared class or from something that was kept.
    obtain ⟨_, same, implied | ⟨other, stays, narrower, narrows, below⟩⟩ := each condition gone
    · cases asserts.symm.trans same
      exact distinct.isSubtype_trans lower implied
    · cases asserts.symm.trans same
      exact distinct.isSubtype_trans
        (passes narrower (mem_asserted_iff.mpr ⟨other, stays, narrows⟩)) below

theorem filter_others_dropImplied (declared : DeclaredExtent) (conditions : List Condition) :
    (declared.dropImplied conditions).filter
        (fun condition => (condition.assertedType? declared.extent).isNone) =
      conditions.filter fun condition => (condition.assertedType? declared.extent).isNone := by
  let give? (condition : Condition) : Option Condition :=
    if (condition.assertedType? declared.extent).isNone then some condition else none
  have same : (declared.dropImplied conditions).filterMap give? = conditions.filterMap give? :=
    (declared.dropImplied_thins conditions).filterMap_eq fun _ _ asserts => by simp [give?, asserts]
  simpa [give?, ← List.filterMap_eq_filter, Option.guard] using same

theorem Thins.any_excludes (thins : Thins declared narrowings earlier conditions kept) :
    kept.any declared.excludes = conditions.any declared.excludes := by
  induction thins with
  | nil => rfl
  | other _ _ ih | needed _ _ _ _ ih | impossible _ _ _ _ ih =>
    rw [List.any_cons, List.any_cons, ih]
  | implied asserts implied _ ih => simp [excludes, asserts, implied, ih]
  | redundant asserts narrowed _ _ ih => simp [excludes, asserts, narrowed, ih]

theorem any_excludes_dropImplied (declared : DeclaredExtent) (conditions : List Condition) :
    (declared.dropImplied conditions).any declared.excludes =
      conditions.any declared.excludes :=
  (declared.dropImplied_thins conditions).any_excludes

theorem simplified_dropImplied (distinct : declared.hierarchy.Distinct)
    (known : declared.hierarchy.contains declared.typeName = true) (conditions : List Condition) :
    declared.Simplified conditions (declared.dropImplied conditions) where
  sublist := (declared.dropImplied_thins conditions).sublist
  others := declared.filter_others_dropImplied conditions
  passes := fun _ => passes_dropImplied_iff distinct
  independent := fun _ _ _ => dropImplied_independent distinct known

end DeclaredExtent

namespace Visit

variable {catalog : Catalog} {visit : Visit}

/-! ## Evaluation -/

/-- A second evaluation of a visit that needs a scan changes nothing. -/
theorem NeedsScan.evaluate_again (needsScan : visit.NeedsScan catalog)
    (ran : visit.evaluate catalog = .ok result) : result.evaluate catalog = .ok result := by
  let declared := visit.declared catalog.hierarchy
  rw [needsScan.evaluate] at ran
  have again : result.NeedsScan catalog := by
    cases ran
    exact needsScan.of_subset rfl rfl (declared.dropImplied_thins visit.conditions).sublist.subset
  have comparisons : result.comparisons = visit.comparisons := by
    cases ran
    exact comparisons_simplifyAssertions visit catalog.hierarchy
  rw [again.evaluate, comparisons]
  cases ran
  congr 2
  · exact declared.dropImplied_dropImplied visit.conditions
  · change (_ && !(declared.dropImplied visit.conditions).any declared.excludes) = _
    rw [declared.any_excludes_dropImplied, Bool.and_assoc, Bool.and_self]

/-- The evaluation of a visit that needs a scan keeps what its assertions mean, with no more of them
than it takes. -/
theorem evaluate_simplified (generation : Nat) (history : List Catalog.Declaration)
    (needsScan : visit.NeedsScan ((Catalog.empty generation).declareAll history)) :
    ∃ result, visit.evaluate ((Catalog.empty generation).declareAll history) = .ok result ∧
      (visit.declared ((Catalog.empty generation).declareAll history).hierarchy).Simplified
        visit.conditions result.conditions ∧
      result.evaluate ((Catalog.empty generation).declareAll history) = .ok result := by
  have distinct := ((Catalog.Declared.empty generation).declareAll history).distinct
  refine ⟨_, needsScan.evaluate, ?_, needsScan.evaluate_again needsScan.evaluate⟩
  exact DeclaredExtent.simplified_dropImplied distinct needsScan.known visit.conditions

/-- The classes of a company, which is not a person. -/
def firmHistory : List Catalog.Declaration :=
  [.type "Entity" none, .type "Person" (some "Entity"), .type "Company" (some "Entity"),
    .type "Employee" (some "Person"), .type "Boss" (some "Employee")]

def isClass (name : String) : Condition := .isType (.object 0) (.named name)

def isOfParameter : Condition := .isType (.object 0) (.parameter 1)

def olderThanParameter : Condition := .compare .greater (.path 0 ["age"]) (.parameter 0)

/-- Persons that are bosses, twice and among other assertions. -/
def bosses : Visit :=
  (unplanned 0 "Person").addConditions [isClass "Employee", isClass "Entity", isClass "Boss",
    olderThanParameter, isClass "Boss", isOfParameter]

theorem bosses_needsScan : bosses.NeedsScan ((Catalog.empty 0).declareAll firmHistory) :=
  ⟨by decide, rfl, by decide, by decide⟩

/-- One of the assertions of a named class is left, and a boss passes it. -/
theorem evaluate_simplified_bosses :
    ∃ result, bosses.evaluate ((Catalog.empty 0).declareAll firmHistory) = .ok result ∧
      result.conditions = [isClass "Boss", olderThanParameter, isOfParameter] ∧
      (bosses.declared ((Catalog.empty 0).declareAll firmHistory).hierarchy).Passes
        bosses.conditions "Boss" ∧
      result.evaluate ((Catalog.empty 0).declareAll firmHistory) = .ok result := by
  obtain ⟨result, ran, simplified, again⟩ := evaluate_simplified 0 firmHistory bosses_needsScan
  have kept : result.conditions = [isClass "Boss", olderThanParameter, isOfParameter] := by
    have evaluated := bosses_needsScan.evaluate
    rw [ran] at evaluated
    rw [Except.ok.inj evaluated]
    decide
  refine ⟨result, ran, kept, (simplified.passes "Boss" (by decide)).mp ?_, again⟩
  rw [kept]
  intro target member
  obtain rfl : target = "Boss" := List.mem_singleton.mp member
  decide

/-- A fresh visit that needs a scan is found never to be satisfied exactly if it asserts a class
that has no subtype in common with the declared one. -/
theorem evaluate_unsatisfiable_iff (generation : Nat) (history : List Catalog.Declaration)
    (needsScan : visit.NeedsScan ((Catalog.empty generation).declareAll history))
    (fresh : visit.satisfiable = true) :
    ∃ result, visit.evaluate ((Catalog.empty generation).declareAll history) = .ok result ∧
      (result.satisfiable = false ↔ ∃ condition ∈ visit.conditions, ∃ target,
        condition = .isType (.object visit.extent) (.named target) ∧
          (visit.declared ((Catalog.empty generation).declareAll history).hierarchy).Impossible
            target) := by
  have distinct := ((Catalog.Declared.empty generation).declareAll history).distinct
  refine ⟨_, needsScan.evaluate, ?_⟩
  dsimp only
  rw [fresh, Bool.true_and, Bool.not_eq_false', List.any_eq_true]
  refine exists_congr fun condition => and_congr_right fun _ => ?_
  rw [DeclaredExtent.excludes_iff distinct needsScan.known]
  exact exists_congr fun _ => and_congr_left fun _ => Condition.assertedType?_eq_some_iff

/-- Persons that are bosses and a company. -/
def incorporatedBosses : Visit := bosses.addConditions [isClass "Company"]

/-- No class is one of persons and of companies. -/
theorem evaluate_unsatisfiable_incorporated :
    ∃ result, incorporatedBosses.evaluate ((Catalog.empty 0).declareAll firmHistory) = .ok result ∧
      result.satisfiable = false ∧
      (incorporatedBosses.declared
        ((Catalog.empty 0).declareAll firmHistory).hierarchy).Impossible "Company" := by
  have needsScan : incorporatedBosses.NeedsScan ((Catalog.empty 0).declareAll firmHistory) :=
    ⟨by decide, rfl, by decide, by decide⟩
  obtain ⟨result, ran, excluded⟩ := evaluate_unsatisfiable_iff 0 firmHistory needsScan rfl
  have impossible : (incorporatedBosses.declared
      ((Catalog.empty 0).declareAll firmHistory).hierarchy).Impossible "Company" := by
    have distinct := ((Catalog.Declared.empty 0).declareAll firmHistory).distinct
    rw [DeclaredExtent.impossible_iff distinct (by decide)]
    decide
  exact ⟨result, ran, excluded.mpr ⟨isClass "Company", by decide, "Company", rfl, impossible⟩,
    impossible⟩

end Visit

end ExtentPlanner
