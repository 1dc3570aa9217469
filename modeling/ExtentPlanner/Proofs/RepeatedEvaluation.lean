import ExtentPlanner.Proofs.ConjunctAccounting
import ExtentPlanner.Proofs.PathConditions

/-! What becomes of the conditions of a visit that is evaluated more than once. Conditions can be
added, hints and orders set and evaluations made in any order. An evaluation that takes a condition
for a lookup notes it in the place of the one noted before, and the path is one lookup at most. So a
condition can get lost as soon as two have been taken, and only by being taken: all others stay with
the visit or are implied by what stays. -/
namespace ExtentPlanner

namespace DeclaredExtent

variable {declared : DeclaredExtent} {kept left : List Condition}

/-- What conditions imply is implied by what is left of them, if each assertion among them is. -/
theorem Implied.through (distinct : declared.hierarchy.Distinct)
    (each : ∀ other ∈ kept, other.assertedType? declared.extent ≠ none →
      other ∈ left ∨ declared.Implied left other)
    (follows : declared.Implied kept condition) : declared.Implied left condition := by
  obtain ⟨target, asserts, byDeclared | ⟨other, member, narrower, narrows, lower⟩⟩ := follows
  · exact ⟨target, asserts, .inl byDeclared⟩
  · rcases each other member (by simp [narrows]) with stays | ⟨own, same, below⟩
    · exact ⟨target, asserts, .inr ⟨other, stays, narrower, narrows, lower⟩⟩
    · cases narrows.symm.trans same
      refine ⟨target, asserts, below.imp (fun implies => ?_) ?_⟩
      · exact distinct.isSubtype_trans implies lower
      · rintro ⟨next, stays, narrowest, isNext, under⟩
        exact ⟨next, stays, narrowest, isNext, distinct.isSubtype_trans under lower⟩

end DeclaredExtent

namespace Visit

variable {catalog : Catalog} {declared : DeclaredExtent} {visit next : Visit}

/-! ## Steps -/

/-- What can be done with a visit. -/
inductive Step where
  | addConditions (conditions : List Condition)
  | hint (index : Index)
  | setOrderIndex (use? : Option IndexUse)
  | setInnermost (innermost : Bool)
  | evaluate

/-- The visit after a step; an evaluation that fails leaves it as it was. -/
def perform (catalog : Catalog) (visit : Visit) : Step → Visit
  | .addConditions conditions => visit.addConditions conditions
  | .hint index => visit.hint index
  | .setOrderIndex use? => visit.setOrderIndex use?
  | .setInnermost innermost => visit.setInnermost innermost
  | .evaluate =>
    match visit.evaluate catalog with
    | .ok evaluated => evaluated
    | .error _ => visit

namespace Step

/-- The conditions that a step adds. -/
def added : Step → List Condition
  | addConditions conditions => conditions
  | hint _ | setOrderIndex _ | setInnermost _ | evaluate => []

/-- The condition that a step takes for a lookup. -/
def taken? (catalog : Catalog) (visit : Visit) : Step → Option Condition
  | evaluate =>
    if visit.hintedIndex?.isSome || !catalog.hierarchy.contains visit.typeName then none
    else (visit.takeReference?.map (·.condition)).or (visit.takeIdentity?.map (·.condition))
  | addConditions _ | hint _ | setOrderIndex _ | setInnermost _ => none

end Step

/-- The conditions that evaluations take for lookups, in order. -/
def takenBy (catalog : Catalog) (visit : Visit) : List Step → List Condition
  | [] => []
  | step :: rest =>
    (step.taken? catalog visit).toList ++ takenBy catalog (visit.perform catalog step) rest

/-! ## One step -/

/-- A visit that had `given` conditions has them still, but for one that was taken for a lookup or
for those that the others imply. -/
inductive Leaves (declared : DeclaredExtent) (given : List Condition) (before after : Visit) :
    Option Condition → Prop where
  | reference (noted : after.replaced? = some condition) (found : after.reference? = some operand)
    (gives : condition.referenceLookup? before.extent = some operand)
    (same : after.identity? = before.identity?)
    (parts : given.Perm (after.conditions ++ [condition])) :
    Leaves declared given before after (some condition)
  | identity (noted : after.replaced? = some condition) (found : after.identity? = some (kind, key))
    (gives : condition.identityLookup? before.extent = some (kind, key))
    (same : after.reference? = before.reference?)
    (parts : given.Perm (after.conditions ++ [condition])) :
    Leaves declared given before after (some condition)
  | rest (noted : after.replaced? = before.replaced?)
    (sameReference : after.reference? = before.reference?)
    (sameIdentity : after.identity? = before.identity?)
    (parts : given.Perm (after.conditions ++ dropped))
    (implied : ∀ condition ∈ dropped, declared.Implied after.conditions condition) :
    Leaves declared given before after none

theorem perform_fresh (catalog : Catalog) (visit : Visit) (step : Step) :
    (visit.perform catalog step).fresh = visit.fresh := by
  cases step with
  | evaluate =>
    rw [perform]
    split
    · rename_i ran
      exact (evaluate_keeps ran).1
    · rfl
  | addConditions | hint | setOrderIndex | setInnermost => rfl

private theorem evaluate_leaves (distinct : catalog.hierarchy.Distinct)
    (ran : visit.evaluate catalog = .ok next) :
    Leaves (visit.declared catalog.hierarchy) visit.conditions visit next
      (Step.taken? catalog visit .evaluate) := by
  obtain ⟨known, found⟩ := findsAccess_of_evaluate ran
  have tried (unhinted : visit.hintedIndex? = none) : Step.taken? catalog visit .evaluate =
      (visit.takeReference?.map (·.condition)).or (visit.takeIdentity?.map (·.condition)) := by
    simp [Step.taken?, known, unhinted]
  cases found with
  | hinted hinted =>
    have nothing : Step.taken? catalog visit .evaluate = none := by simp [Step.taken?, hinted]
    rw [nothing]
    exact .rest rfl rfl rfl (by simp) (List.forall_mem_nil _)
  | reference unhinted found =>
    obtain ⟨gives, parts⟩ := takeReference?_some found
    rw [tried unhinted, found]
    exact .reference rfl rfl gives rfl parts
  | identity unhinted noReference found =>
    obtain ⟨gives, parts⟩ := takeIdentity?_some found
    rw [tried unhinted, noReference, found]
    exact .identity rfl rfl gives rfl parts
  | scan unhinted noReference noIdentity =>
    obtain ⟨dropped, parts, implied⟩ :=
      (visit.declared catalog.hierarchy).dropImplied_parts distinct visit.conditions
    rw [tried unhinted, noReference, noIdentity]
    exact .rest rfl rfl rfl parts implied

/-- A failed evaluation takes nothing. -/
theorem perform_leaves (distinct : catalog.hierarchy.Distinct) (visit : Visit) (step : Step) :
    Leaves (visit.declared catalog.hierarchy) (visit.conditions ++ step.added) visit
      (visit.perform catalog step) (step.taken? catalog visit) := by
  cases step with
  | addConditions conditions =>
    exact .rest rfl rfl rfl (by simp [perform, addConditions, Step.added]) (List.forall_mem_nil _)
  | hint | setOrderIndex | setInnermost =>
    exact .rest rfl rfl rfl (by simp [perform, hint, setOrderIndex, setInnermost, Step.added])
      (List.forall_mem_nil _)
  | evaluate =>
    rw [perform, Step.added, List.append_nil]
    split
    · rename_i ran
      exact evaluate_leaves distinct ran
    · rename_i failed
      have nothing : Step.taken? catalog visit .evaluate = none := by
        rw [evaluate] at failed
        split at failed
        · cases failed
        · rename_i unknown
          simp [Step.taken?, unknown]
      rw [nothing]
      exact .rest rfl rfl rfl (by simp) (List.forall_mem_nil _)

theorem LookupsFit.finds_nothing (fit : visit.LookupsFit) (unnoted : visit.replaced? = none) :
    visit.reference? = none ∧ visit.identity? = none := by
  refine ⟨Option.eq_none_iff_forall_ne_some.mpr fun operand found => ?_,
    Option.eq_none_iff_forall_ne_some.mpr fun key found => ?_⟩
  · obtain ⟨condition, noted, _⟩ := fit.reference operand found
    cases unnoted.symm.trans noted
  · obtain ⟨condition, noted, _⟩ := fit.identity key.1 key.2 found
    cases unnoted.symm.trans noted

namespace Leaves

variable {given : List Condition} {before after : Visit} {condition : Condition}

theorem lookup (leaves : Leaves declared given before after (some condition)) :
    condition.IsLookup before.extent := by
  cases leaves with
  | reference _ _ gives => exact Condition.isLookup_of_reference gives
  | identity _ _ gives => exact Condition.isLookup_of_identity gives

theorem mem_given (leaves : Leaves declared given before after taken?)
    (member : condition ∈ after.conditions ++ taken?.toList) : condition ∈ given := by
  cases leaves with
  | reference _ _ _ _ parts | identity _ _ _ _ parts => exact parts.mem_iff.mpr member
  | rest _ _ _ parts =>
    rw [Option.toList_none, List.append_nil] at member
    exact parts.mem_iff.mpr (List.mem_append_left _ member)

theorem survives (leaves : Leaves declared given before after taken?) (member : condition ∈ given) :
    condition ∈ after.conditions ∨ condition ∈ taken?.toList ∨
      declared.Implied after.conditions condition := by
  cases leaves with
  | reference _ _ _ _ parts | identity _ _ _ _ parts =>
    exact (List.mem_append.mp (parts.mem_iff.mp member)).imp_right .inl
  | rest _ _ _ parts implied =>
    exact (List.mem_append.mp (parts.mem_iff.mp member)).imp_right
      fun inDropped => .inr (implied condition inDropped)

/-- What the conditions implied before, what is left of them implies still. -/
theorem implied (leaves : Leaves declared given before after taken?)
    (distinct : declared.hierarchy.Distinct) (follows : declared.Implied given condition) :
    declared.Implied after.conditions condition := by
  refine follows.through distinct fun other member asserts => ?_
  rcases leaves.survives member with stays | taken | implied
  · exact .inl stays
  · rw [Option.mem_toList] at taken
    subst taken
    exact absurd (leaves.lookup.asserts_nothing _) asserts
  · exact .inr implied

/-- The first lookup that is found is given by the condition noted for it. -/
theorem lookupsFit (leaves : Leaves declared given before after taken?)
    (same : after.extent = before.extent) (fit : before.LookupsFit)
    (unnoted : before.replaced? = none ∨ taken? = none) :
    after.LookupsFit ∧ after.replaced? = before.replaced?.or taken? := by
  cases leaves with
  | reference noted found gives sameIdentity =>
    have unnoted : before.replaced? = none := unnoted.resolve_right (by simp)
    refine ⟨⟨fun operand isFound => ?_, fun kind key isFound => ?_, fun missing => ?_⟩, ?_⟩
    · cases found.symm.trans isFound
      exact ⟨_, noted, same ▸ gives⟩
    · rw [sameIdentity, (fit.finds_nothing unnoted).2] at isFound
      cases isFound
    · cases found.symm.trans missing
    · rw [noted, unnoted, Option.none_or]
  | identity noted found gives sameReference =>
    have unnoted : before.replaced? = none := unnoted.resolve_right (by simp)
    refine ⟨⟨fun operand isFound => ?_, fun kind key isFound => ?_, fun _ missing => ?_⟩, ?_⟩
    · rw [sameReference, (fit.finds_nothing unnoted).1] at isFound
      cases isFound
    · cases found.symm.trans isFound
      exact ⟨_, noted, same ▸ gives⟩
    · cases found.symm.trans missing
    · rw [noted, unnoted, Option.none_or]
  | rest noted sameReference sameIdentity =>
    refine ⟨⟨?_, ?_, ?_⟩, ?_⟩
    · rw [sameReference, noted, same]
      exact fit.reference
    · rw [sameIdentity, noted, same]
      exact fit.identity
    · rw [sameReference, sameIdentity, noted]
      exact fit.neither
    · rw [noted, Option.or_none]

end Leaves

/-! ## Many steps -/

/-- Where the `added` conditions of a visit are, of which evaluations have `taken` some. -/
structure Accounts (declared : DeclaredExtent) (added taken : List Condition) (visit : Visit) :
    Prop where
  each : ∀ condition ∈ added,
    condition ∈ visit.conditions ∨ condition ∈ taken ∨ declared.Implied visit.conditions condition
  own : ∀ condition ∈ visit.conditions ++ taken, condition ∈ added
  lookups : ∀ condition ∈ taken, condition.IsLookup visit.extent
  first : taken.length ≤ 1 → visit.LookupsFit ∧ visit.replaced? = taken.head?

theorem accounts_unplanned (hierarchy : Hierarchy) (extent : Nat) (typeName : String) :
    Accounts ((unplanned extent typeName).declared hierarchy) [] []
      (unplanned extent typeName) where
  each := by simp
  own := by simp [unplanned]
  lookups := by simp
  first := fun _ => ⟨⟨by simp [unplanned], by simp [unplanned], fun _ _ => rfl⟩, rfl⟩

theorem Accounts.step (distinct : declared.hierarchy.Distinct)
    (accounts : Accounts declared added taken visit) (same : next.extent = visit.extent)
    (leaves : Leaves declared (visit.conditions ++ given) visit next taken?) :
    Accounts declared (added ++ given) (taken ++ taken?.toList) next where
  each := by
    intro condition member
    have ofGiven : condition ∈ visit.conditions ++ given →
        condition ∈ next.conditions ∨ condition ∈ taken ++ taken?.toList ∨
          declared.Implied next.conditions condition := fun inGiven =>
      (leaves.survives inGiven).imp_right (.imp_left (List.mem_append_right taken))
    rcases List.mem_append.mp member with before | new
    · rcases accounts.each condition before with stays | taken | implied
      · exact ofGiven (List.mem_append_left _ stays)
      · exact .inr (.inl (List.mem_append_left _ taken))
      · refine .inr (.inr (leaves.implied distinct ?_))
        exact implied.through distinct fun other inside _ => .inl (List.mem_append_left _ inside)
    · exact ofGiven (List.mem_append_right _ new)
  own := by
    intro condition member
    have ofGiven : condition ∈ visit.conditions ++ given → condition ∈ added ++ given :=
      fun inGiven => List.mem_append.mpr ((List.mem_append.mp inGiven).imp_left fun stays =>
        accounts.own condition (List.mem_append_left _ stays))
    rw [← List.append_assoc, List.mem_append, List.mem_append] at member
    rcases member with (stays | taken) | new
    · exact ofGiven (leaves.mem_given (List.mem_append_left _ stays))
    · exact List.mem_append_left _ (accounts.own condition (List.mem_append_right _ taken))
    · exact ofGiven (leaves.mem_given (List.mem_append_right _ new))
  lookups := by
    intro condition member
    rw [same]
    rcases List.mem_append.mp member with before | new
    · exact accounts.lookups condition before
    · rw [Option.mem_toList] at new
      subst new
      exact leaves.lookup
  first := by
    intro few
    rw [List.length_append] at few
    obtain ⟨fit, noted⟩ := accounts.first (by omega)
    -- With one lookup at most, the step that takes it finds none noted.
    have unnoted : visit.replaced? = none ∨ taken? = none := by
      cases taken? with
      | none => exact .inr rfl
      | some condition =>
        have nothing : taken = [] := by
          rw [Option.toList_some, List.length_singleton] at few
          exact List.length_eq_zero_iff.mp (by omega)
        exact .inl (by rw [noted, nothing, List.head?_nil])
    obtain ⟨stillFit, stillNoted⟩ := leaves.lookupsFit same fit unnoted
    refine ⟨stillFit, ?_⟩
    rw [stillNoted, noted, List.head?_append]
    cases taken? <;> rfl

/-- Whatever is done with a visit, its conditions are accounted for. -/
theorem Accounts.performed (distinct : catalog.hierarchy.Distinct)
    (accounts : Accounts (visit.declared catalog.hierarchy) added taken visit)
    (steps : List Step) :
    Accounts (visit.declared catalog.hierarchy) (added ++ steps.flatMap Step.added)
      (taken ++ takenBy catalog visit steps) (steps.foldl (perform catalog) visit) := by
  induction steps generalizing visit added taken with
  | nil => simpa [takenBy] using accounts
  | cons step rest ih =>
    have fresh := visit.perform_fresh catalog step
    have sameExtent : (visit.perform catalog step).extent = visit.extent :=
      congrArg (·.extent) fresh
    have sameDeclared : (visit.perform catalog step).declared catalog.hierarchy =
        visit.declared catalog.hierarchy :=
      congrArg (·.declared catalog.hierarchy) fresh
    have next := accounts.step distinct sameExtent (perform_leaves distinct visit step)
    rw [← sameDeclared] at next
    have later := ih next
    rw [sameDeclared] at later
    simpa [takenBy] using later

theorem performed_fresh (catalog : Catalog) (visit : Visit) (steps : List Step) :
    (steps.foldl (perform catalog) visit).fresh = visit.fresh := by
  induction steps generalizing visit with
  | nil => rfl
  | cons step rest ih => exact (ih _).trans (visit.perform_fresh catalog step)

private theorem perform_scanned (scans : (catalog.scanIndex? visit.typeName).isSome = true)
    (known : catalog.hierarchy.contains visit.typeName = true)
    (ready : visit.scanIndex?.isSome = true ∨ step = .evaluate) :
    (visit.perform catalog step).scanIndex?.isSome = true := by
  cases step with
  | evaluate =>
    rw [perform]
    split
    · rename_i ran
      rw [(evaluate_scans ran).2]
      exact scans
    · rename_i failed
      rw [evaluate, if_pos known] at failed
      cases failed
  | addConditions | hint | setOrderIndex | setInnermost => exact ready.resolve_right (by simp)

/-- A visit of a registered class that has been evaluated can be scanned from then on. -/
theorem performed_scanned {steps : List Step}
    (scans : (catalog.scanIndex? visit.typeName).isSome = true)
    (known : catalog.hierarchy.contains visit.typeName = true)
    (ready : visit.scanIndex?.isSome = true ∨ .evaluate ∈ steps) :
    (steps.foldl (perform catalog) visit).scanIndex?.isSome = true := by
  induction steps generalizing visit with
  | nil => exact ready.resolve_right List.not_mem_nil
  | cons step rest ih =>
    have sameType : (visit.perform catalog step).typeName = visit.typeName :=
      congrArg (·.typeName) (visit.perform_fresh catalog step)
    refine ih (sameType ▸ scans) (sameType ▸ known) ?_
    rcases ready with scanned | member
    · exact .inl (perform_scanned scans known (.inl scanned))
    · rcases List.mem_cons.mp member with first | later
      · exact .inl (perform_scanned scans known (.inr first.symm))
      · exact .inr later

/-- If no more than one condition has been taken for a lookup, the visit remembers it. -/
theorem Accounts.remembers (accounts : Accounts declared added taken visit)
    (few : taken.length ≤ 1) (member : condition ∈ taken) : visit.Remembers condition := by
  obtain ⟨fit, first⟩ := accounts.first few
  have noted : visit.replaced? = some condition := by
    obtain ⟨head, rest, rfl⟩ := List.exists_cons_of_ne_nil (List.ne_nil_of_mem member)
    have alone : rest = [] := List.length_eq_zero_iff.mp (by simpa using few)
    rw [alone] at member
    rw [first, List.mem_singleton.mp member, List.head?_cons]
  by_cases given : (visit.hintedIndex?.isSome || visit.orderIndex?.isSome) = true
  · refine .inl ⟨condition, ?_, by simp [(accounts.lookups condition member).single]⟩
    rw [pathConditions, if_pos given, allConditions, noted]
    exact List.mem_append_right _ (List.mem_singleton_self _)
  · refine .inr ?_
    rw [pathLookup?, if_neg given]
    cases isReference : visit.reference? with
    | some reference =>
      obtain ⟨own, same, gives⟩ := fit.reference reference isReference
      cases noted.symm.trans same
      exact ⟨_, rfl, gives⟩
    | none =>
      cases isIdentity : visit.identity? with
      | some key =>
        obtain ⟨own, same, gives⟩ := fit.identity key.1 key.2 isIdentity
        cases noted.symm.trans same
        exact ⟨_, rfl, gives⟩
      | none => cases noted.symm.trans (fit.neither isReference isIdentity)

/-- Whatever has been done with a visit, its path enforces every condition that was added exactly if
the visit still remembers those that evaluations took for lookups. It does if there was at most one.
A visit of a registered class has a path as soon as it has been evaluated. -/
theorem evaluated_again_enforces_iff (registered : catalog.Declared) (extent : Nat)
    (typeName : String) (steps : List Step) (generator? : Option FilterGenerator) :
    let declared : DeclaredExtent := ⟨catalog.hierarchy, extent, typeName⟩
    let visit := steps.foldl (perform catalog) (unplanned extent typeName)
    let added := steps.flatMap Step.added
    let taken := takenBy catalog (unplanned extent typeName) steps
    (catalog.hierarchy.contains typeName = true → .evaluate ∈ steps →
      ∃ path, visit.access generator? = .ok path) ∧
    ∀ path, visit.access generator? = .ok path →
      ((∀ condition ∈ added, path.Enforces declared condition) ↔
        ∀ condition ∈ taken, visit.Remembers condition) ∧
      (taken.length ≤ 1 → ∀ condition ∈ added, path.Enforces declared condition) := by
  intro declared visit added taken
  have accounts : Accounts declared added taken visit := by
    have ofStart : Accounts declared ([] ++ added) ([] ++ taken) visit :=
      (accounts_unplanned catalog.hierarchy extent typeName).performed registered.distinct steps
    rwa [List.nil_append, List.nil_append] at ofStart
  have sameExtent : declared.extent = visit.extent :=
    (congrArg (·.extent) (performed_fresh catalog (unplanned extent typeName) steps)).symm
  refine ⟨fun known evaluated => ?_, fun path ran => ?_⟩
  · exact access_succeeds
      (performed_scanned (registered.scanIndex?_isSome known) known (.inr evaluated)) generator?
  have evaluates := access_evaluates ran
  have enforces_iff : (∀ condition ∈ added, path.Enforces declared condition) ↔
      ∀ condition ∈ taken, visit.Remembers condition := by
    constructor
    · intro enforced condition member
      exact (evaluates.enforces_lookup_iff (accounts.lookups condition member)).mp
        (enforced condition (accounts.own condition (List.mem_append_right _ member)))
    · intro remembers condition member
      rcases accounts.each condition member with stays | inTaken | implied
      · exact evaluates.enforces (visit.conditions_subset_path stays)
      · exact (evaluates.enforces_lookup_iff (accounts.lookups condition inTaken)).mpr
          (remembers condition inTaken)
      · exact evaluates.enforces_implied sameExtent implied
  exact ⟨enforces_iff, fun few => enforces_iff.mpr fun condition member =>
    accounts.remembers few member⟩

open Planner (staffCatalog staffCatalog_declared)

/-- Looks a person up, and has the persons come by age before they are evaluated again. -/
def orderedLater : List Step :=
  [.addConditions [.compare .equal (.objectNumber 0) (.parameter 0),
      .isType (.object 0) (.named "Person")],
    .evaluate, .addConditions [.compare .greater (.path 0 ["age"]) (.parameter 1)],
    .setOrderIndex (some ⟨⟨"PersonAge", "Person", [⟨"age", .ascending, .integer⟩]⟩, .ascending⟩),
    .evaluate]

/-- The scan by age evaluates the condition that the lookup has replaced. -/
theorem evaluated_again_enforces_ordered :
    takenBy staffCatalog (unplanned 0 "Person") orderedLater =
      [.compare .equal (.objectNumber 0) (.parameter 0)] ∧
    ∃ path, (orderedLater.foldl (perform staffCatalog) (unplanned 0 "Person")).access none =
        .ok path ∧
      ∀ condition ∈ orderedLater.flatMap Step.added,
        path.Enforces ⟨staffCatalog.hierarchy, 0, "Person"⟩ condition := by
  have enforces := evaluated_again_enforces_iff staffCatalog_declared 0 "Person" orderedLater none
  have taken : takenBy staffCatalog (unplanned 0 "Person") orderedLater =
      [.compare .equal (.objectNumber 0) (.parameter 0)] := by decide
  obtain ⟨path, ran⟩ := enforces.1 (by decide) (by simp [orderedLater])
  refine ⟨taken, path, ran, (enforces.2 path ran).2 ?_⟩
  rw [taken]
  exact Nat.le_refl 1

/-- Looks one person up and then another. -/
def lookedUpTwice : List Step :=
  [.addConditions [.compare .equal (.objectNumber 0) (.literal (.int 1))], .evaluate,
    .addConditions [.compare .equal (.objectNumber 0) (.literal (.int 2))], .evaluate]

/-- The second lookup takes the place of the first, whose condition is enforced nowhere. -/
theorem first_lookup_lost :
    let visit := lookedUpTwice.foldl (perform staffCatalog) (unplanned 0 "Person")
    let first := Condition.compare .equal (.objectNumber 0) (.literal (.int 1))
    first ∈ lookedUpTwice.flatMap Step.added ∧
      visit.access none =
        .ok (.identity 0 .number (.literal (.int 2)) (.truth .isTrue)) ∧
      ¬Access.Enforces ⟨staffCatalog.hierarchy, 0, "Person"⟩
        (.identity 0 .number (.literal (.int 2)) (.truth .isTrue)) first := by
  refine ⟨by decide, rfl, fun enforced => ?_⟩
  cases enforced with
  | key member serves =>
    cases List.mem_singleton.mp member
    cases serves
  | filter inside => cases List.mem_singleton.mp (inside (List.mem_singleton_self _))
  | implied follows =>
    obtain ⟨target, asserts, _⟩ := follows
    cases asserts

end Visit

end ExtentPlanner
