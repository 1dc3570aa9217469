import ExtentPlanner.Proofs.ExtentMembers
import ExtentPlanner.Proofs.FoldedForm

/-! What folding leaves of a condition. TRUE and FALSE are absorbed at every depth, so each of them
is the whole result or no part of it, and no literal is left to be negated. What the result reads,
tests for null, matches with a parameter or asserts is what the condition did, in the same order and
with some of it left out. So distribution and planning, which see folded conjuncts only, meet no
extent that the query does not name. -/
namespace ExtentPlanner

namespace Condition

variable {condition left right inner : Condition}

/-- The condition itself and every condition inside it. -/
def parts : Condition → List Condition
  | truth value => [truth value]
  | compare operator left right => [compare operator left right]
  | isType object target => [isType object target]
  | and left right => and left right :: (left.parts ++ right.parts)
  | or left right => or left right :: (left.parts ++ right.parts)
  | not inner => not inner :: inner.parts

/-- Every assertion of a type in the condition, from left to right. -/
def assertions : Condition → List (Operand × TypeTarget)
  | isType object target => [(object, target)]
  | and left right | or left right => left.assertions ++ right.assertions
  | not inner => inner.assertions
  | truth _ | compare .. => []

/-! ## Literals -/

/-- Constants have been absorbed as far as they can be. -/
structure Absorbed (condition : Condition) : Prop where
  /-- TRUE and FALSE stand alone. -/
  literals : ∀ value, truth value ∈ condition.parts → value = .unknown ∨ condition = truth value
  /-- No literal is negated. -/
  negations : ∀ value, not (truth value) ∉ condition.parts

/-- The condition is neither TRUE nor FALSE. -/
def Open (condition : Condition) : Prop :=
  condition ≠ truth .isTrue ∧ condition ≠ truth .isFalse

theorem absorbed_truth (value : Truth) : (truth value).Absorbed := by
  constructor <;> simp [parts, eq_comm]

theorem absorbed_compare (operator : Operator) (left right : Operand) :
    (compare operator left right).Absorbed := by
  constructor <;> simp [parts]

theorem absorbed_isType (object : Operand) (target : TypeTarget) :
    (isType object target).Absorbed := by
  constructor <;> simp [parts]

theorem Absorbed.unknown (absorbed : condition.Absorbed) (isOpen : condition.Open)
    (inside : truth value ∈ condition.parts) : value = .unknown := by
  rcases absorbed.literals value inside with unknown | rfl
  · exact unknown
  · cases value with
    | isTrue => exact absurd rfl isOpen.1
    | isFalse => exact absurd rfl isOpen.2
    | unknown => rfl

/-- A condition made of two operands that are absorbed, and none of which is TRUE or FALSE. -/
theorem Absorbed.of_operands {whole : Condition}
    (made : whole.parts = whole :: (left.parts ++ right.parts))
    (joins : ∀ value, whole ≠ truth value ∧ whole ≠ not (truth value))
    (lefts : left.Absorbed) (rights : right.Absorbed) (openLeft : left.Open)
    (openRight : right.Open) : whole.Absorbed := by
  constructor <;> intro value inside <;> rw [made] at inside
  · rcases List.mem_cons.mp inside with same | inOperands
    · exact .inr same.symm
    · rcases List.mem_append.mp inOperands with onLeft | onRight
      · exact .inl (lefts.unknown openLeft onLeft)
      · exact .inl (rights.unknown openRight onRight)
  · rcases List.mem_cons.mp inside with same | inOperands
    · exact (joins value).2 same.symm
    · rcases List.mem_append.mp inOperands with onLeft | onRight
      · exact lefts.negations value onLeft
      · exact rights.negations value onRight

theorem Absorbed.foldAnd (lefts : left.Absorbed) (rights : right.Absorbed) :
    (foldAnd left right).Absorbed := by
  unfold Condition.foldAnd
  split
  · exact absorbed_truth .isFalse
  · exact absorbed_truth .isFalse
  · exact rights
  · exact lefts
  · rename_i leftFalse leftTrue rightFalse rightTrue
    exact .of_operands rfl (by simp) lefts rights ⟨leftTrue, leftFalse⟩ ⟨rightTrue, rightFalse⟩

theorem Absorbed.foldOr (lefts : left.Absorbed) (rights : right.Absorbed) :
    (foldOr left right).Absorbed := by
  unfold Condition.foldOr
  split
  · exact absorbed_truth .isTrue
  · exact absorbed_truth .isTrue
  · exact rights
  · exact lefts
  · rename_i leftTrue leftFalse rightTrue rightFalse
    exact .of_operands rfl (by simp) lefts rights ⟨leftTrue, leftFalse⟩ ⟨rightTrue, rightFalse⟩

/-- A negation of UNKNOWN is UNKNOWN, so that even this literal is never negated. -/
theorem Absorbed.foldNot (inners : inner.Absorbed) : (foldNot inner).Absorbed := by
  unfold Condition.foldNot
  split
  · exact absorbed_truth .isFalse
  · exact absorbed_truth .isTrue
  · exact absorbed_truth .unknown
  · rename_i notTrue notFalse notUnknown
    constructor
    · intro value inside
      have inInner : truth value ∈ inner.parts := by simpa [parts] using inside
      exact .inl (inners.unknown ⟨notTrue, notFalse⟩ inInner)
    · intro value inside
      rcases List.mem_cons.mp inside with same | inInner
      · cases same
        cases value <;> contradiction
      · exact inners.negations value inInner

/-- A comparison becomes a literal, stays as it is, or is a LIKE that gives way to an equality or a
test for a beginning. -/
theorem foldComparison_becomes (operator : Operator) (left right : Operand) :
    (∃ value, foldComparison operator left right = truth value) ∨
      foldComparison operator left right = compare operator left right ∨
      ∃ pattern simpler text, operator = .like ∧ right = .text pattern ∧
        (simpler = .equal ∨ simpler = .startsWith) ∧
        foldComparison operator left right = compare simpler left (.text text) := by
  rcases foldComparison_cases operator left right with
    ⟨_, _, value, _, _, _, folded⟩ | ⟨_, folded⟩
  · exact .inl ⟨value, folded⟩
  rw [folded]
  rcases simplifyLike_cases operator left right with
    ⟨_, same⟩ | ⟨pattern, simpler, text, isLike, isText, _, either, made⟩
  · exact .inr (.inl same)
  · exact .inr (.inr ⟨pattern, simpler, text, isLike, isText, either, made⟩)

theorem absorbed_foldComparison (operator : Operator) (left right : Operand) :
    (foldComparison operator left right).Absorbed := by
  rcases foldComparison_becomes operator left right with
    ⟨value, folded⟩ | same | ⟨_, _, _, _, _, _, made⟩
  · rw [folded]
    exact absorbed_truth value
  · rw [same]
    exact absorbed_compare ..
  · rw [made]
    exact absorbed_compare ..

/-- In a folded condition, TRUE and FALSE stand alone and no literal is negated. -/
theorem absorbed_fold (condition : Condition) : condition.fold.Absorbed := by
  induction condition with
  | truth value => exact absorbed_truth value
  | isType object target => exact absorbed_isType object target
  | compare operator left right => exact absorbed_foldComparison operator left right
  | and left right lefts rights => exact lefts.foldAnd rights
  | or left right lefts rights => exact lefts.foldOr rights
  | not inner inners => exact inners.foldNot

/-! ## What is collected from a condition -/

/-- A function that collects something from the comparisons and assertions of a condition, from left
to right. It finds nothing in a literal, and no more in the comparison that takes the place of a
LIKE. -/
structure Collects {α : Type} (collect : Condition → List α) : Prop where
  truth : ∀ value, collect (truth value) = []
  and : ∀ left right, collect (and left right) = collect left ++ collect right
  or : ∀ left right, collect (or left right) = collect left ++ collect right
  not : ∀ inner, collect (not inner) = collect inner
  like : ∀ operand pattern simpler text, simpler = .equal ∨ simpler = .startsWith →
    (collect (compare simpler operand (.text text))).Sublist
      (collect (compare .like operand (.text pattern)))

namespace Collects

variable {α : Type} {collect : Condition → List α}

theorem foldAnd (collects : Collects collect) (left right : Condition) :
    (collect (foldAnd left right)).Sublist (collect left ++ collect right) := by
  unfold Condition.foldAnd
  split
  · simp [collects.truth]
  · simp [collects.truth]
  · exact List.sublist_append_right ..
  · exact List.sublist_append_left ..
  · rw [collects.and]

theorem foldOr (collects : Collects collect) (left right : Condition) :
    (collect (foldOr left right)).Sublist (collect left ++ collect right) := by
  unfold Condition.foldOr
  split
  · simp [collects.truth]
  · simp [collects.truth]
  · exact List.sublist_append_right ..
  · exact List.sublist_append_left ..
  · rw [collects.or]

theorem foldNot (collects : Collects collect) (inner : Condition) :
    (collect (foldNot inner)).Sublist (collect inner) := by
  unfold Condition.foldNot
  split
  · simp [collects.truth]
  · simp [collects.truth]
  · simp [collects.truth]
  · rw [collects.not]

theorem foldComparison (collects : Collects collect) (operator : Operator)
    (left right : Operand) :
    (collect (foldComparison operator left right)).Sublist
      (collect (compare operator left right)) := by
  rcases foldComparison_becomes operator left right with
    ⟨value, folded⟩ | same | ⟨pattern, simpler, text, rfl, rfl, either, made⟩
  · rw [folded, collects.truth]
    exact List.nil_sublist _
  · rw [same]
  · rw [made]
    exact collects.like left pattern simpler text either

/-- Of what is collected, folding leaves out some and adds nothing. -/
theorem fold (collects : Collects collect) (condition : Condition) :
    (collect condition.fold).Sublist (collect condition) := by
  induction condition with
  | truth | isType => exact List.Sublist.refl _
  | compare operator left right => exact collects.foldComparison operator left right
  | and left right lefts rights =>
    rw [collects.and]
    exact (collects.foldAnd left.fold right.fold).trans (lefts.append rights)
  | or left right lefts rights =>
    rw [collects.or]
    exact (collects.foldOr left.fold right.fold).trans (lefts.append rights)
  | not inner inners =>
    rw [collects.not]
    exact (collects.foldNot inner.fold).trans inners

end Collects

theorem collects_extents : Collects extents where
  truth _ := rfl
  and _ _ := rfl
  or _ _ := rfl
  not _ := rfl
  like _ _ _ _ _ := List.Sublist.refl _

theorem collects_nullTested : Collects nullTested where
  truth _ := rfl
  and _ _ := rfl
  or _ _ := rfl
  not _ := rfl
  like := by
    rintro operand pattern _ text (rfl | rfl) <;> exact List.nil_sublist _

theorem collects_patternParameters : Collects patternParameters where
  truth _ := rfl
  and _ _ := rfl
  or _ _ := rfl
  not _ := rfl
  like := by
    rintro operand pattern _ text (rfl | rfl) <;> exact List.nil_sublist _

theorem collects_assertions : Collects assertions where
  truth _ := rfl
  and _ _ := rfl
  or _ _ := rfl
  not _ := rfl
  like _ _ _ _ _ := List.Sublist.refl _

/-! ## Keys of conjuncts -/

theorem extents_of_mem_conjuncts {conjunct : Condition} (member : conjunct ∈ condition.conjuncts)
    (read : extent ∈ conjunct.extents) : extent ∈ condition.extents := by
  induction condition with
  | and left right lefts rights =>
    rcases List.mem_append.mp member with onLeft | onRight
    · exact List.mem_append_left _ (lefts onLeft)
    · exact List.mem_append_right _ (rights onRight)
  | truth | compare | isType | or | not =>
    rw [List.mem_singleton.mp member] at read
    exact read

/-- What folding makes of a condition is no more than the condition. -/
structure Simplifies (condition folded : Condition) : Prop where
  absorbed : folded.Absorbed
  extents : folded.extents.Sublist condition.extents
  nullTested : folded.nullTested.Sublist condition.nullTested
  patternParameters : folded.patternParameters.Sublist condition.patternParameters
  assertions : folded.assertions.Sublist condition.assertions

/-- Folding only simplifies. So each conjunct that an addition stores has a key that names no extent
but those of the condition that was added. -/
theorem fold_only_simplifies (condition : Condition) :
    condition.Simplifies condition.fold ∧
      ∀ table : ConjunctTable, ∀ group ∈ (table.add condition).1.groups,
        ∀ stored ∈ group.conditions,
          (∃ before ∈ table.groups, before.key = group.key ∧ stored ∈ before.conditions) ∨
            stored ∈ condition.fold.conjuncts ∧
              ∀ extent, group.key.includes extent = true → extent ∈ condition.extents := by
  have reads := collects_extents.fold condition
  refine ⟨⟨absorbed_fold condition, reads, collects_nullTested.fold condition,
    collects_patternParameters.fold condition, collects_assertions.fold condition⟩, ?_⟩
  intro table
  refine ConjunctTable.addConjuncts_groups (fun key stored =>
    (∃ before ∈ table.groups, before.key = key ∧ stored ∈ before.conditions) ∨
      stored ∈ condition.fold.conjuncts ∧
        ∀ extent, key.includes extent = true → extent ∈ condition.extents) ?_ ?_
  · exact fun group member stored inside => .inl ⟨group, member, rfl, inside⟩
  · intro conjunct member _ key ran
    refine .inr ⟨member, fun extent named => ?_⟩
    have read : extent ∈ conjunct.extents := ((ExtentSet.ofList_members ran).2 extent).mp named
    exact reads.subset (extents_of_mem_conjuncts member read)

/-- Bosses named by a pattern, without an age or not, which says nothing. -/
def bossesNamedLike : Condition :=
  .and (.or (.compare .like (.path 3 ["name"]) (.parameter 1)) (.compare .isNot .null .null))
    (.and (.isType (.object 5) (.named "Boss"))
      (.or (.compare .is (.path 7 ["age"]) .null) (.not (.compare .isNot .null .null))))

/-- The test of an age goes, and no key names the extent that only this test reads. -/
theorem fold_only_simplifies_bossesNamedLike :
    bossesNamedLike.fold = .and (.compare .like (.path 3 ["name"]) (.parameter 1))
        (.isType (.object 5) (.named "Boss")) ∧
      bossesNamedLike.extents = [3, 5, 7] ∧ bossesNamedLike.fold.extents.Sublist [3, 5, 7] ∧
      (ConjunctTable.empty.add bossesNamedLike).1.groups =
        [⟨⟨8⟩, [.compare .like (.path 3 ["name"]) (.parameter 1)]⟩,
          ⟨⟨32⟩, [.isType (.object 5) (.named "Boss")]⟩] ∧
      ∀ extent, (⟨32⟩ : ExtentSet).includes extent = true → extent ∈ [3, 5, 7] := by
  have simplifies := fold_only_simplifies bossesNamedLike
  have filed : (ConjunctTable.empty.add bossesNamedLike).1.groups =
      [⟨⟨8⟩, [.compare .like (.path 3 ["name"]) (.parameter 1)]⟩,
        ⟨⟨32⟩, [.isType (.object 5) (.named "Boss")]⟩] := by decide
  refine ⟨by decide, by decide, simplifies.1.extents, filed, ?_⟩
  have member : (⟨⟨32⟩, [.isType (.object 5) (.named "Boss")]⟩ : ConjunctGroup) ∈
      (ConjunctTable.empty.add bossesNamedLike).1.groups := by simp [filed]
  rcases simplifies.2 .empty _ member _ List.mem_cons_self with ⟨_, before, _⟩ | ⟨_, names⟩
  · cases before
  · exact names

end Condition

end ExtentPlanner
