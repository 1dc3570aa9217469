import ExtentPlanner.Condition.Folding
import Mathlib.Data.List.Infix

/-! What conditions mean and that folding keeps it. A valuation gives operands their values; from
these the truth of a condition follows by three-valued logic. Where planning can evaluate a
comparison its answer is the truth, LIKE matches a text with a literal pattern, and all else is left
to the valuation, so that the main theorem holds whatever an executor makes of it. Folding needs
one assumption: a LIKE compares texts or nulls, as the comparison that takes its place would answer
otherwise for a value of another kind. -/
namespace ExtentPlanner

/-! ## Three-valued logic -/

namespace Truth

def and : Truth → Truth → Truth
  | isFalse, _ | _, isFalse => isFalse
  | isTrue, isTrue => isTrue
  | _, _ => unknown

def or : Truth → Truth → Truth
  | isTrue, _ | _, isTrue => isTrue
  | isFalse, isFalse => isFalse
  | _, _ => unknown

def not : Truth → Truth
  | isTrue => isFalse
  | isFalse => isTrue
  | unknown => unknown

@[simp] theorem isFalse_and (truth : Truth) : isFalse.and truth = isFalse := by
  cases truth <;> rfl

@[simp] theorem and_isFalse (truth : Truth) : truth.and isFalse = isFalse := by
  cases truth <;> rfl

@[simp] theorem isTrue_and (truth : Truth) : isTrue.and truth = truth := by
  cases truth <;> rfl

@[simp] theorem and_isTrue (truth : Truth) : truth.and isTrue = truth := by
  cases truth <;> rfl

@[simp] theorem isTrue_or (truth : Truth) : isTrue.or truth = isTrue := by
  cases truth <;> rfl

@[simp] theorem or_isTrue (truth : Truth) : truth.or isTrue = isTrue := by
  cases truth <;> rfl

@[simp] theorem isFalse_or (truth : Truth) : isFalse.or truth = truth := by
  cases truth <;> rfl

@[simp] theorem or_isFalse (truth : Truth) : truth.or isFalse = truth := by
  cases truth <;> rfl

end Truth

namespace Pattern

variable {front rest text : List Char}

/-- Whether a text matches a LIKE pattern: `%` stands for any text, `_` for any character, and every
other character for itself. -/
def accepts : (pattern text : List Char) → Bool
  | [], text => text.isEmpty
  | wanted :: rest, text =>
    if wanted = '%' then text.tails.any (accepts rest)
    else
      match text with
      | [] => false
      | character :: left => (wanted == '_' || wanted == character) && accepts rest left

theorem accepts_percent :
    accepts ('%' :: rest) text = true ↔ ∃ left, left <:+ text ∧ accepts rest left = true := by
  simp [accepts]

/-- Before its first wildcard a pattern asks for the very characters it has. -/
theorem accepts_append (plain : isPlain front = true) :
    accepts (front ++ rest) text = true ↔
      ∃ left, text = front ++ left ∧ accepts rest left = true := by
  induction front generalizing text with
  | nil => simp
  | cons wanted others ih =>
    have parts : isWild wanted = false ∧ isPlain others = true := by
      simpa [isPlain] using plain
    obtain ⟨noText, noCharacter⟩ : wanted ≠ '%' ∧ wanted ≠ '_' := by
      simpa [isWild] using parts.1
    rw [List.cons_append, accepts.eq_def]
    cases text with
    | nil => simp [noText]
    | cons character left =>
      simp only [noText, if_false, Bool.and_eq_true, Bool.or_eq_true, beq_iff_eq, noCharacter,
        false_or, ih parts.2, List.cons_append, List.cons.injEq]
      constructor
      · rintro ⟨rfl, remaining, same, accepted⟩
        exact ⟨remaining, ⟨rfl, same⟩, accepted⟩
      · rintro ⟨remaining, ⟨rfl, same⟩, accepted⟩
        exact ⟨rfl, remaining, same, accepted⟩

/-- A pattern without wildcards is matched by its own text only. -/
theorem accepts_of_exact (plain : isPlain front = true) :
    accepts front text = true ↔ text = front := by
  have split : accepts (front ++ []) text = true ↔
      ∃ left, text = front ++ left ∧ accepts [] left = true := accepts_append plain
  simpa [accepts] using split

/-- A pattern that ends in its only wildcard `%` is matched by the texts that start with what stands
before it. -/
theorem accepts_of_beginning (plain : isPlain front = true) :
    accepts (front ++ ['%']) text = true ↔ front <+: text := by
  have anything : ∀ left, accepts ['%'] left = true := fun left =>
    accepts_percent.mpr ⟨[], List.nil_suffix, rfl⟩
  rw [accepts_append plain]
  constructor
  · rintro ⟨left, rfl, _⟩
    exact List.prefix_append front left
  · rintro ⟨left, rfl⟩
    exact ⟨left, rfl, anything left⟩

theorem ofText_exact {pattern : String} (read : ofText pattern = .exact found) :
    found = pattern ∧ isPlain pattern.toList = true := by
  unfold ofText at read
  split at read
  · rename_i plain
    cases read
    exact ⟨rfl, plain⟩
  · repeat' split at read
    all_goals cases read

theorem ofText_beginning {pattern : String} (read : ofText pattern = .beginning found) :
    pattern.toList = found.toList ++ ['%'] ∧ isPlain found.toList = true := by
  unfold ofText at read
  split at read
  · cases read
  · split at read
    swap
    · cases read
    rename_i reversed ends
    split at read
    swap
    · cases read
    rename_i shape
    cases read
    have back := congrArg List.reverse ends
    simp only [List.reverse_reverse, List.reverse_cons] at back
    simp only [Bool.and_eq_true] at shape
    refine ⟨by simpa using back, ?_⟩
    simpa [isPlain] using shape.2

/-- The truth of LIKE for a text and a literal pattern. -/
def match? : Operator → Scalar → Operand → Option Truth
  | .like, .text text, .literal (.text pattern) =>
    some (.ofBool (accepts pattern.toList text.toList))
  | _, _, _ => none

end Pattern

/-! ## Truth of conditions -/

/-- What the operands and assertions of a condition stand for. -/
structure Valuation where
  /-- The value of an operand that is no literal. -/
  value : Operand → Scalar
  /-- The truth of a comparison that its values and its pattern do not decide. -/
  compares : Operator → Operand → Operand → Truth
  asserts : Operand → TypeTarget → Truth

namespace Valuation

variable {valuation : Valuation}

def of (valuation : Valuation) : Operand → Scalar
  | .literal value => value
  | operand => valuation.value operand

/-- The truth of a comparison: as planning tells it if it can, by matching for a text and a literal
pattern, and whatever the valuation says otherwise. -/
def compared (valuation : Valuation) (operator : Operator) (left right : Operand) : Truth :=
  ((operator.evaluate? (valuation.of left) (valuation.of right)).or
    (Pattern.match? operator (valuation.of left) right)).getD
      (valuation.compares operator left right)

theorem compared_of_evaluate?
    (decided : operator.evaluate? (valuation.of left) (valuation.of right) = some truth) :
    valuation.compared operator left right = truth := by
  rw [compared, decided, Option.some_or, Option.getD_some]

/-- Comparing a null is unknown, except by the tests for null. -/
theorem compared_null (null : valuation.of left = .null)
    (ordinary : operator ≠ .is ∧ operator ≠ .isNot) :
    valuation.compared operator left right = .unknown := by
  apply compared_of_evaluate?
  rw [null]
  cases operator <;> simp_all [Operator.evaluate?, Scalar.isNull]

theorem compared_equal (isText : valuation.of left = .text text) :
    valuation.compared .equal left (.text other) = .ofBool (text == other) := by
  have same : (compare text other == .eq) = (text == other) := by
    rw [Bool.eq_iff_iff]
    simp
  apply compared_of_evaluate?
  rw [isText, ← same]
  rfl

theorem compared_startsWith (isText : valuation.of left = .text text) :
    valuation.compared .startsWith left (.text front) =
      .ofBool (front.toList.isPrefixOf text.toList) := by
  apply compared_of_evaluate?
  rw [isText]
  rfl

theorem compared_like (isText : valuation.of left = .text text) :
    valuation.compared .like left (.text pattern) =
      .ofBool (Pattern.accepts pattern.toList text.toList) := by
  rw [compared, isText]
  rfl

end Valuation

namespace Condition

variable {valuation : Valuation}

def truthIn (valuation : Valuation) : Condition → Truth
  | truth value => value
  | compare operator left right => valuation.compared operator left right
  | isType object target => valuation.asserts object target
  | and left right => (left.truthIn valuation).and (right.truthIn valuation)
  | or left right => (left.truthIn valuation).or (right.truthIn valuation)
  | not inner => (inner.truthIn valuation).not

/-- The comparison stands somewhere in the condition. -/
inductive Compares (operator : Operator) (left right : Operand) : Condition → Prop where
  | here : Compares operator left right (compare operator left right)
  | andLeft (compares : Compares operator left right first) :
      Compares operator left right (and first second)
  | andRight (compares : Compares operator left right second) :
      Compares operator left right (and first second)
  | orLeft (compares : Compares operator left right first) :
      Compares operator left right (or first second)
  | orRight (compares : Compares operator left right second) :
      Compares operator left right (or first second)
  | not (compares : Compares operator left right negated) :
      Compares operator left right (not negated)

/-! ## Folding -/

theorem truthIn_foldAnd (left right : Condition) :
    (foldAnd left right).truthIn valuation =
      (left.truthIn valuation).and (right.truthIn valuation) := by
  unfold foldAnd
  split <;> simp [truthIn]

theorem truthIn_foldOr (left right : Condition) :
    (foldOr left right).truthIn valuation =
      (left.truthIn valuation).or (right.truthIn valuation) := by
  unfold foldOr
  split <;> simp [truthIn]

theorem truthIn_foldNot (inner : Condition) :
    (foldNot inner).truthIn valuation = (inner.truthIn valuation).not := by
  unfold foldNot
  split <;> rfl

/-- A simpler comparison in the place of LIKE says of every text and of a null what LIKE says. -/
theorem truthIn_simplifyLike (comparable : operator = .like →
      valuation.of left = .null ∨ ∃ text, valuation.of left = .text text) :
    (simplifyLike operator left right).truthIn valuation =
      valuation.compared operator left right := by
  unfold simplifyLike
  split
  swap
  · rfl
  rename_i pattern
  cases read : Pattern.ofText pattern with
  | general => rfl
  | exact found =>
    obtain ⟨rfl, plain⟩ := Pattern.ofText_exact read
    rcases comparable rfl with null | ⟨text, isText⟩
    · exact (Valuation.compared_null null (by simp)).trans
        (Valuation.compared_null null (by simp)).symm
    · have accepted : valuation.compared .like left (.text found) = _ :=
        Valuation.compared_like isText
      refine (Valuation.compared_equal isText).trans (Eq.trans ?_ accepted.symm)
      congr 1
      rw [Bool.eq_iff_iff, Pattern.accepts_of_exact plain, beq_iff_eq, String.toList_inj]
  | beginning found =>
    obtain ⟨ends, plain⟩ := Pattern.ofText_beginning read
    rcases comparable rfl with null | ⟨text, isText⟩
    · exact (Valuation.compared_null null (by simp)).trans
        (Valuation.compared_null null (by simp)).symm
    · have accepted : valuation.compared .like left (.text pattern) = _ :=
        Valuation.compared_like isText
      refine (Valuation.compared_startsWith isText).trans (Eq.trans ?_ accepted.symm)
      congr 1
      rw [Bool.eq_iff_iff, ends, Pattern.accepts_of_beginning plain, List.isPrefixOf_iff_prefix]

theorem truthIn_foldComparison (comparable : operator = .like →
      valuation.of left = .null ∨ ∃ text, valuation.of left = .text text) :
    (foldComparison operator left right).truthIn valuation =
      valuation.compared operator left right := by
  unfold foldComparison
  split
  · split
    · rename_i decided
      exact (Valuation.compared_of_evaluate? decided).symm
    · exact truthIn_simplifyLike comparable
  · exact truthIn_simplifyLike comparable

/-- A condition and what folding makes of it have the same truth whatever its operands stand for, as
long as each LIKE compares a text or a null. -/
theorem fold_keeps_truth (condition : Condition) (valuation : Valuation)
    (comparable : ∀ left right, condition.Compares .like left right →
      valuation.of left = .null ∨ ∃ text, valuation.of left = .text text) :
    condition.fold.truthIn valuation = condition.truthIn valuation := by
  induction condition with
  | truth | isType => rfl
  | compare operator left right =>
    refine truthIn_foldComparison ?_
    rintro rfl
    exact comparable left right .here
  | and left right lefts rights =>
    have onLeft := lefts fun _ _ compares => comparable _ _ compares.andLeft
    have onRight := rights fun _ _ compares => comparable _ _ compares.andRight
    rw [fold, truthIn_foldAnd, onLeft, onRight, truthIn]
  | or left right lefts rights =>
    have onLeft := lefts fun _ _ compares => comparable _ _ compares.orLeft
    have onRight := rights fun _ _ compares => comparable _ _ compares.orRight
    rw [fold, truthIn_foldOr, onLeft, onRight, truthIn]
  | not inner inners =>
    have inside := inners fun _ _ compares => comparable _ _ compares.not
    rw [fold, truthIn_foldNot, inside, truthIn]

/-- Named Jo-something, or nicknamed other than Jim. -/
def namedJo : Condition :=
  .or (.and (.compare .like (.path 0 ["name"]) (.text "Jo%")) (.compare .is .null .null))
    (.not (.compare .like (.path 0 ["nickname"]) (.text "Jim")))

/-- A person called John who has no nickname. -/
def john : Valuation where
  value := fun operand => if operand = .path 0 ["name"] then .text "John" else .null
  compares := fun _ _ _ => .unknown
  asserts := fun _ _ => .unknown

/-- Both patterns go and the test of a literal too; John remains one of those asked for. -/
theorem fold_keeps_truth_john :
    namedJo.fold = .or (.compare .startsWith (.path 0 ["name"]) (.text "Jo"))
        (.not (.compare .equal (.path 0 ["nickname"]) (.text "Jim"))) ∧
      namedJo.fold.truthIn john = namedJo.truthIn john ∧ namedJo.truthIn john = .isTrue := by
  refine ⟨by decide, fold_keeps_truth namedJo john fun left right compares => ?_, by decide⟩
  cases compares with
  | orLeft inside =>
    cases inside with
    | andLeft named =>
      cases named
      exact .inr ⟨"John", rfl⟩
    | andRight tested => cases tested
  | orRight inside =>
    cases inside with
    | not nicknamed =>
      cases nicknamed
      exact .inl rfl

end Condition

end ExtentPlanner
