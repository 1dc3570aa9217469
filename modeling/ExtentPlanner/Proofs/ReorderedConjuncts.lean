import ExtentPlanner.Proofs.MatchedTrees
import ExtentPlanner.Proofs.VisitEvaluation

/-! Conjuncts in another order. Two tables have the same groups, and each group has the same
conjuncts in any order. They are handed to the same visits and joins; and a visit that was given the
same conditions in another order finds an access path of the same kind, through the same index. What
may differ is the key of a lookup, if several conditions give one. -/
namespace ExtentPlanner

/-- The tables have the same groups, each with the same conjuncts in any order. -/
def ConjunctTable.Reordered (table other : ConjunctTable) : Prop :=
  List.Forall₂ (fun group changed =>
    changed.key = group.key ∧ group.conditions.Perm changed.conditions) table.groups other.groups

namespace ConjunctTable.Reordered

variable {table other : ConjunctTable}

theorem symm (reordered : table.Reordered other) : other.Reordered table := by
  refine List.Forall₂.flip (List.Forall₂.imp ?_ reordered)
  rintro group changed ⟨key, conditions⟩
  exact ⟨key.symm, conditions.symm⟩

theorem size_eq (reordered : table.Reordered other) : other.size = table.size := by
  obtain ⟨groups⟩ := table
  obtain ⟨others⟩ := other
  rw [size, size, ConjunctTable.conditions, ConjunctTable.conditions]
  change List.Forall₂ _ groups others at reordered
  induction reordered with
  | nil => rfl
  | cons same _ ih =>
    rw [List.flatMap_cons, List.flatMap_cons, List.length_append, List.length_append, ih,
      same.2.length_eq]

end ConjunctTable.Reordered

/-! ## Searches in reordered lists -/

/-- Whether something can be taken from a list does not depend on its order. -/
theorem takeFirst?_perm {α : Type} (give? : Condition → Option α) {first second : List Condition}
    (reordered : first.Perm second) :
    Option.Rel (fun taken other =>
        give? taken.condition = some taken.found ∧ give? other.condition = some other.found)
      (takeFirst? give? first) (takeFirst? give? second) := by
  have some_iff : ∀ conditions : List Condition,
      (takeFirst? give? conditions).isSome = conditions.any fun condition =>
        (give? condition).isSome := by
    intro conditions
    induction conditions with
    | nil => rfl
    | cons condition rest ih =>
      rw [takeFirst?, List.any_cons]
      split
      · rename_i given
        simp [given]
      · rename_i nothing
        simp [nothing, ih]
  have same : (takeFirst? give? second).isSome = (takeFirst? give? first).isSome := by
    rw [some_iff, some_iff, reordered.any_eq]
  cases inFirst : takeFirst? give? first with
  | none =>
    rw [inFirst, Option.isSome_none, Option.isSome_eq_false_iff, Option.isNone_iff_eq_none] at same
    rw [same]
    exact .none
  | some taken =>
    rw [inFirst, Option.isSome_some] at same
    obtain ⟨other, inSecond⟩ := Option.isSome_iff_exists.mp same
    rw [inSecond]
    exact .some ⟨(takeFirst?_some inFirst).1, (takeFirst?_some inSecond).1⟩

/-- How well comparisons bound the columns of an index does not depend on their order. -/
theorem coverageFrom_perm {comparisons others : List ColumnComparison}
    (reordered : comparisons.Perm others) (position : Nat) (columns : List IndexColumn) :
    coverageFrom others position columns = coverageFrom comparisons position columns := by
  induction columns generalizing position with
  | nil => rfl
  | cons column rest ih =>
    have bounds := reordered.filter fun comparison => comparison.column == column.path
    simp only [coverageFrom, bounds.isEmpty_eq, bounds.any_eq, ih]

theorem bestIndex?_perm {comparisons others : List ColumnComparison}
    (reordered : comparisons.Perm others) (indexes : List Index) :
    bestIndex? others indexes = bestIndex? comparisons indexes := by
  have same : betterIndex others = betterIndex comparisons := by
    funext best index
    have coverage : index.coverage others = index.coverage comparisons :=
      coverageFrom_perm reordered 0 index.columns
    rw [betterIndex, betterIndex, coverage]
  rw [bestIndex?, bestIndex?, same]

namespace Visit

/-- The visits differ only in the order of their conditions. -/
structure Shuffled (visit other : Visit) : Prop where
  same : other = { visit with conditions := other.conditions }
  conditions : visit.conditions.Perm other.conditions

/-- The visits are of the same extent and are read by access paths of the same kind: through the
same indexes, or by a lookup of the same kind. -/
structure SameAccess (visit other : Visit) : Prop where
  extent : other.extent = visit.extent
  typeName : other.typeName = visit.typeName
  reference : other.reference?.isSome = visit.reference?.isSome
  identity : other.identity?.map (·.1) = visit.identity?.map (·.1)
  hintedIndex? : other.hintedIndex? = visit.hintedIndex?
  orderIndex? : other.orderIndex? = visit.orderIndex?
  bestIndex? : other.bestIndex? = visit.bestIndex?
  scanIndex? : other.scanIndex? = visit.scanIndex?
  satisfiable : other.satisfiable = visit.satisfiable
  innermost : other.innermost = visit.innermost

variable {visit other : Visit}

theorem Shuffled.extent (shuffled : Shuffled visit other) : other.extent = visit.extent := by
  rw [shuffled.same]

theorem Shuffled.sameAccess (shuffled : Shuffled visit other) : SameAccess visit other := by
  rw [shuffled.same]
  exact ⟨rfl, rfl, rfl, rfl, rfl, rfl, rfl, rfl, rfl, rfl⟩

theorem SameAccess.setOrderIndex (same : SameAccess visit other) (use? : Option IndexUse) :
    SameAccess (visit.setOrderIndex use?) (other.setOrderIndex use?) :=
  { same with orderIndex? := rfl }

theorem SameAccess.setInnermost (same : SameAccess visit other) (innermost : Bool) :
    SameAccess (visit.setInnermost innermost) (other.setInnermost innermost) :=
  { same with innermost := rfl }

/-- What an access path costs depends on its kind only. -/
theorem SameAccess.cost (same : SameAccess visit other) : other.cost = visit.cost := by
  have identity := same.identity
  rw [Visit.cost, Visit.cost, same.hintedIndex?, same.orderIndex?, same.reference, same.bestIndex?]
  cases ofVisit : visit.identity? with
  | none =>
    rw [ofVisit, Option.map_none, Option.map_eq_none_iff] at identity
    rw [identity]
  | some found =>
    rw [ofVisit, Option.map_some, Option.map_eq_some_iff] at identity
    obtain ⟨⟨kind, key⟩, ofOther, sameKind⟩ := identity
    obtain ⟨own, ownKey⟩ := found
    dsimp only at sameKind
    rw [ofOther, sameKind]
    cases own <;> rfl

theorem Shuffled.takeReference? (shuffled : Shuffled visit other) :
    Option.Rel (fun _ _ => True) visit.takeReference? other.takeReference? := by
  have either := takeFirst?_perm (·.referenceLookup? visit.extent) shuffled.conditions
  rw [Visit.takeReference?, Visit.takeReference?, shuffled.extent]
  generalize takeFirst? _ visit.conditions = inFirst at either ⊢
  generalize takeFirst? _ other.conditions = inSecond at either ⊢
  cases either with
  | some _ => exact .some trivial
  | none => exact .none

/-- The lookups by identity that two orders of the conditions give are of the same kind. -/
theorem Shuffled.takeIdentity? (shuffled : Shuffled visit other) :
    Option.Rel (fun taken found => found.found.1 = taken.found.1) visit.takeIdentity?
      other.takeIdentity? := by
  have ofKind : ∀ kind, Option.Rel (fun taken found => found.found.1 = taken.found.1)
      (takeFirst? (·.identityLookupOf? visit.extent kind) visit.conditions)
      (takeFirst? (·.identityLookupOf? visit.extent kind) other.conditions) := by
    intro kind
    have kindOf : ∀ {condition : Condition} {found : IdentityKind × Operand},
        condition.identityLookupOf? visit.extent kind = some found → found.1 = kind := by
      intro condition found given
      exact beq_iff_eq.mp (Option.filter_eq_some_iff.mp given).2
    have either := takeFirst?_perm (·.identityLookupOf? visit.extent kind) shuffled.conditions
    generalize takeFirst? _ visit.conditions = inFirst at either ⊢
    generalize takeFirst? _ other.conditions = inSecond at either ⊢
    cases either with
    | none => exact .none
    | some given => exact .some ((kindOf given.2).trans (kindOf given.1).symm)
  rw [Visit.takeIdentity?, Visit.takeIdentity?, shuffled.extent]
  exact rel_or (ofKind .number) (ofKind .id)

theorem Shuffled.comparisons (shuffled : Shuffled visit other) :
    visit.comparisons.Perm other.comparisons := by
  rw [Visit.comparisons, Visit.comparisons, shuffled.extent]
  exact shuffled.conditions.filterMap _

/-- Visits that are given the same conditions in another order find access paths of the same
kind. -/
theorem Shuffled.chooseAccess (shuffled : Shuffled visit other) (catalog : Catalog) :
    SameAccess (visit.chooseAccess catalog) (other.chooseAccess catalog) := by
  have same := shuffled.sameAccess
  have hinted : other.hintedIndex?.isSome = visit.hintedIndex?.isSome := by
    rw [same.hintedIndex?]
  rw [Visit.chooseAccess, Visit.chooseAccess, hinted]
  split
  · exact same
  have references := shuffled.takeReference?
  have identities := shuffled.takeIdentity?
  generalize visit.takeReference? = reference at references
  generalize other.takeReference? = reference' at references
  cases references with
  | some _ =>
    dsimp only
    exact { same with reference := rfl }
  | none =>
    dsimp only
    generalize visit.takeIdentity? = identity at identities
    generalize other.takeIdentity? = identity' at identities
    cases identities with
    | some sameKind =>
      dsimp only
      exact { same with identity := congrArg some sameKind }
    | none =>
      dsimp only
      have excluded : other.conditions.any (other.declared catalog.hierarchy).excludes =
          visit.conditions.any (visit.declared catalog.hierarchy).excludes := by
        rw [shuffled.conditions.any_eq, declared, declared, same.extent, same.typeName]
      refine { same with bestIndex? := ?_, satisfiable := ?_ }
      · simp only [chooseIndex, comparisons_simplifyAssertions]
        rw [bestIndex?_perm shuffled.comparisons]
        simp only [simplifyAssertions, same.typeName]
      · simp only [chooseIndex, simplifyAssertions, same.satisfiable, excluded]

theorem Shuffled.evaluate (shuffled : Shuffled visit other) (catalog : Catalog) :
    Alike SameAccess (visit.evaluate catalog) (other.evaluate catalog) := by
  have known : catalog.hierarchy.contains other.typeName =
      catalog.hierarchy.contains visit.typeName := by
    rw [shuffled.sameAccess.typeName]
  rw [Visit.evaluate, Visit.evaluate, known]
  split
  · have scanned : Shuffled { visit with scanIndex? := catalog.scanIndex? visit.typeName }
        { other with scanIndex? := catalog.scanIndex? other.typeName } := by
      refine ⟨?_, shuffled.conditions⟩
      rw [shuffled.same]
    exact .succeed (scanned.chooseAccess catalog)
  · exact .fail _ _

end Visit

/-! ## Handing out conditions -/

namespace Candidate

open JoinTree (Matched)

variable {table other : ConjunctTable}

/-- The placements hand out the same conditions to the same places. -/
structure Placement.Shuffled (placement changed : Placement) : Prop where
  placed : placement.placed.Perm changed.placed
  postFilters : placement.postFilters.Perm changed.postFilters

theorem Placement.Shuffled.conditionsAt {placement changed : Placement}
    (shuffled : placement.Shuffled changed) (position : Nat) :
    (placement.conditionsAt position).Perm (changed.conditionsAt position) :=
  (shuffled.placed.filter _).map _

private theorem placeGroup_perm (nullSupplied : ExtentSet) (position : Nat) (key : ExtentSet)
    {conditions changed : List Condition} (reordered : conditions.Perm changed) :
    Alike Placement.Shuffled (placeGroup nullSupplied position key conditions)
      (placeGroup nullSupplied position key changed) := by
  have succeeds := placeGroup_succeedsIff nullSupplied position key changed
  have same : (∀ condition ∈ changed, ∃ tested, condition.nullTestedSet = .ok tested) ↔
      ∀ condition ∈ conditions, ∃ tested, condition.nullTestedSet = .ok tested := by
    simp only [reordered.mem_iff]
  refine .of_succeedsIff (placeGroup_succeedsIff nullSupplied position key conditions)
    (succeeds.imp same fun _ _ => id) fun placement other ran ranOther => ?_
  obtain ⟨placed, postFilters⟩ := placeGroup_eq ran
  obtain ⟨otherPlaced, otherPostFilters⟩ := placeGroup_eq ranOther
  refine ⟨?_, ?_⟩
  · rw [placed, otherPlaced]
    exact (reordered.filter _).map _
  · rw [postFilters, otherPostFilters]
    exact (reordered.filter _).map _

/-- Reordered tables are sorted out alike. -/
theorem placeGroups_reordered (nullSupplied : ExtentSet) (order : List Nat)
    (reordered : table.Reordered other) :
    Alike Placement.Shuffled (placeGroups nullSupplied order table.groups)
      (placeGroups nullSupplied order other.groups) := by
  obtain ⟨groups⟩ := table
  obtain ⟨others⟩ := other
  change List.Forall₂ _ groups others at reordered
  induction reordered with
  | nil => exact .succeed ⟨.refl _, .refl _⟩
  | @cons group changed rest restChanged same _ ih =>
    obtain ⟨key, conditions⟩ := same
    rw [placeGroups, placeGroups, key]
    split
    · exact ih
    · rename_i position _
      have own := placeGroup_perm nullSupplied position group.key conditions
      refine own.bind fun placed placedToo inOwn => ?_
      refine ih.bind fun later laterToo inLater => ?_
      exact .succeed ⟨inOwn.placed.append inLater.placed,
        inOwn.postFilters.append inLater.postFilters⟩

/-- If the conditions of a table can be distributed, so can those of a reordered one; the same
visits and joins get the same conditions in another order. -/
theorem distributeConditions_reordered {candidate next : Candidate}
    (reordered : table.Reordered other)
    (ran : candidate.distributeConditions table = (next, .ok ())) :
    ∃ top, candidate.distributeConditions other = ({ next with top := top }, .ok ()) ∧
      Matched Visit.Shuffled next.top top := by
  obtain ⟨nullSupplied, placement, supplied, placed, attached, same, complete⟩ :=
    distributeConditions_ok ran
  have alike := placeGroups_reordered nullSupplied candidate.order reordered
  rw [placed] at alike
  cases placedOther : placeGroups nullSupplied candidate.order other.groups with
  | error failure =>
    rw [placedOther] at alike
    cases alike
  | ok changed =>
    rw [placedOther] at alike
    cases alike with
    | succeed shuffled =>
      have visits : Matched Visit.Shuffled
          (candidate.top.mapVisits fun position leaf =>
            leaf.addConditions (placement.conditionsAt position))
          (candidate.top.mapVisits fun position leaf =>
            leaf.addConditions (changed.conditionsAt position)) :=
        Matched.mapVisits candidate.top fun position leaf =>
          ⟨rfl, (shuffled.conditionsAt position).append_left leaf.conditions⟩
      obtain ⟨top, attachedOther, matched⟩ := visits.attachPostFilters
        (fun _ _ => Visit.Shuffled.extent) shuffled.postFilters attached
      have planned : (do placeGroups (← candidate.top.nullSupplied) candidate.order other.groups) =
          .ok changed := bind_succeeds.mpr ⟨nullSupplied, supplied, placedOther⟩
      refine ⟨top, ?_, matched⟩
      rw [distributeConditions]
      dsimp only
      rw [planned]
      dsimp only
      rw [attachedOther]
      dsimp only
      rw [if_pos, same]
      rw [← shuffled.placed.length_eq, ← shuffled.postFilters.length_eq, complete,
        reordered.size_eq]

end Candidate

end ExtentPlanner
