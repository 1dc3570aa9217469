import ExtentPlanner.Proofs.FoldedTruth
import ExtentPlanner.Proofs.StoredConjuncts

/-! Whether a second folding pass finds anything to do. One pass evaluates comparisons and
simplifies patterns bottom-up, so all but one kind of its results are settled: a LIKE between two
texts is no comparison that planning can tell, but what takes its place is. The first pass leaves
that comparison, also as a conjunct of its own in a table, and the second evaluates it. -/
namespace ExtentPlanner

namespace Condition

variable {condition inner : Condition}

/-! ## What becomes of a comparison -/

/-- An equality or a test for a beginning takes the place of LIKE unless its pattern needs
matching. -/
theorem simplifyLike_cases (operator : Operator) (left right : Operand) :
    (∀ pattern, operator = .like → right = .literal (.text pattern) →
        Pattern.ofText pattern = .general) ∧
      simplifyLike operator left right = compare operator left right ∨
    ∃ pattern simpler text, operator = .like ∧ right = .literal (.text pattern) ∧
      Pattern.ofText pattern ≠ .general ∧ (simpler = .equal ∨ simpler = .startsWith) ∧
      simplifyLike operator left right = compare simpler left (.text text) := by
  unfold simplifyLike
  split
  · rename_i pattern
    cases read : Pattern.ofText pattern with
    | exact text => exact .inr ⟨pattern, .equal, text, rfl, rfl, by simp [read], .inl rfl, rfl⟩
    | beginning text =>
      exact .inr ⟨pattern, .startsWith, text, rfl, rfl, by simp [read], .inr rfl, rfl⟩
    | general =>
      refine .inl ⟨?_, rfl⟩
      rintro _ - ⟨⟩
      exact read
  · rename_i other
    exact .inl ⟨fun pattern isLike isText => (other pattern isLike isText).elim, rfl⟩

/-- Two literals that planning can compare become a truth value; of other operands only a LIKE
changes. -/
theorem foldComparison_cases (operator : Operator) (left right : Operand) :
    (∃ first second value, left = .literal first ∧ right = .literal second ∧
        operator.evaluate? first second = some value ∧
        foldComparison operator left right = truth value) ∨
      (∀ first second, left = .literal first → right = .literal second →
        operator.evaluate? first second = none) ∧
      foldComparison operator left right = simplifyLike operator left right := by
  unfold foldComparison
  split
  · split
    · rename_i decided
      exact .inl ⟨_, _, _, rfl, rfl, decided, rfl⟩
    · rename_i undecided
      refine .inr ⟨?_, rfl⟩
      rintro first second ⟨⟩ ⟨⟩
      exact undecided
  · rename_i apart
    exact .inr ⟨fun first second isFirst isSecond => absurd isSecond (apart first second isFirst),
      rfl⟩

/-! ## Where comparisons stand -/

@[simp] theorem compares_truth : ¬(truth value).Compares operator left right := nofun

@[simp] theorem compares_isType : ¬(isType object target).Compares operator left right := nofun

@[simp] theorem compares_compare : (compare own first second).Compares operator left right ↔
    own = operator ∧ first = left ∧ second = right := by
  constructor
  · rintro ⟨⟩
    exact ⟨rfl, rfl, rfl⟩
  · rintro ⟨rfl, rfl, rfl⟩
    exact .here

@[simp] theorem compares_and : (and first second).Compares operator left right ↔
    first.Compares operator left right ∨ second.Compares operator left right := by
  constructor
  · intro inside
    cases inside with
    | andLeft onLeft => exact .inl onLeft
    | andRight onRight => exact .inr onRight
  · exact fun inside => inside.elim .andLeft .andRight

@[simp] theorem compares_or : (or first second).Compares operator left right ↔
    first.Compares operator left right ∨ second.Compares operator left right := by
  constructor
  · intro inside
    cases inside with
    | orLeft onLeft => exact .inl onLeft
    | orRight onRight => exact .inr onRight
  · exact fun inside => inside.elim .orLeft .orRight

@[simp] theorem compares_not : (not inner).Compares operator left right ↔
    inner.Compares operator left right := by
  constructor
  · intro inside
    cases inside with
    | not within => exact within
  · exact .not

/-- Folding an AND leaves what stands in its operands, unless the other operand is FALSE. -/
theorem compares_foldAnd : (foldAnd first second).Compares operator left right ↔
    first.Compares operator left right ∧ second ≠ truth .isFalse ∨
      second.Compares operator left right ∧ first ≠ truth .isFalse := by
  unfold foldAnd
  split <;> simp_all

/-- Folding an OR leaves what stands in its operands, unless the other operand is TRUE. -/
theorem compares_foldOr : (foldOr first second).Compares operator left right ↔
    first.Compares operator left right ∧ second ≠ truth .isTrue ∨
      second.Compares operator left right ∧ first ≠ truth .isTrue := by
  unfold foldOr
  split <;> simp_all

theorem compares_foldNot : (foldNot inner).Compares operator left right ↔
    inner.Compares operator left right := by
  unfold foldNot
  split <;> simp_all

/-- A comparison that is left has been made of some comparison of the condition. -/
theorem compares_fold (compares : condition.fold.Compares operator left right) :
    ∃ own first second, condition.Compares own first second ∧
      foldComparison own first second = compare operator left right := by
  induction condition with
  | truth | isType => cases compares
  | compare own first second =>
    refine ⟨own, first, second, .here, ?_⟩
    rw [fold] at compares
    unfold foldComparison simplifyLike at compares ⊢
    repeat' split at compares
    all_goals simp_all
  | and first second ofFirst ofSecond =>
    simp only [compares_and, or_and_right, exists_or]
    exact (compares_foldAnd.mp compares).imp (fun inside => ofFirst inside.1)
      fun inside => ofSecond inside.1
  | or first second ofFirst ofSecond =>
    simp only [compares_or, or_and_right, exists_or]
    exact (compares_foldOr.mp compares).imp (fun inside => ofFirst inside.1)
      fun inside => ofSecond inside.1
  | not inner inners =>
    simp only [compares_not]
    exact inners (compares_foldNot.mp compares)

/-! ## Comparisons of literals -/

/-- A comparison of two literals that planning can tell stands in the condition. -/
def Unevaluated (condition : Condition) : Prop :=
  ∃ operator left right value, condition.Compares operator (.literal left) (.literal right) ∧
    operator.evaluate? left right = some value

/-- A LIKE between literal texts that has a simpler comparison is left by folding: no operand beside
it absorbs it. -/
def LeavesLike : Condition → Prop
  | compare .like (.literal (.text _)) (.literal (.text pattern)) =>
    Pattern.ofText pattern ≠ .general
  | compare .. | truth _ | isType .. => False
  | and left right =>
    left.LeavesLike ∧ right.fold ≠ truth .isFalse ∨ right.LeavesLike ∧ left.fold ≠ truth .isFalse
  | or left right =>
    left.LeavesLike ∧ right.fold ≠ truth .isTrue ∨ right.LeavesLike ∧ left.fold ≠ truth .isTrue
  | not inner => inner.LeavesLike

theorem unevaluated_compare : (compare operator left right).Unevaluated ↔
    ∃ first second value, left = .literal first ∧ right = .literal second ∧
      operator.evaluate? first second = some value := by
  simp only [Unevaluated, compares_compare]
  constructor
  · rintro ⟨_, first, second, value, ⟨rfl, rfl, rfl⟩, decided⟩
    exact ⟨first, second, value, rfl, rfl, decided⟩
  · rintro ⟨first, second, value, rfl, rfl, decided⟩
    exact ⟨_, first, second, value, ⟨rfl, rfl, rfl⟩, decided⟩

theorem unevaluated_foldAnd : (foldAnd left right).Unevaluated ↔
    left.Unevaluated ∧ right ≠ truth .isFalse ∨ right.Unevaluated ∧ left ≠ truth .isFalse := by
  simp only [Unevaluated, compares_foldAnd]
  grind

theorem unevaluated_foldOr : (foldOr left right).Unevaluated ↔
    left.Unevaluated ∧ right ≠ truth .isTrue ∨ right.Unevaluated ∧ left ≠ truth .isTrue := by
  simp only [Unevaluated, compares_foldOr]
  grind

theorem unevaluated_foldNot : (foldNot inner).Unevaluated ↔ inner.Unevaluated := by
  simp only [Unevaluated, compares_foldNot]

theorem leavesLike_compare : (compare operator left right).LeavesLike ↔
    ∃ text pattern, operator = .like ∧ left = .literal (.text text) ∧
      right = .literal (.text pattern) ∧ Pattern.ofText pattern ≠ .general := by
  constructor
  · intro leaves
    unfold LeavesLike at leaves
    split at leaves
    · rename_i same
      cases same
      exact ⟨_, _, rfl, rfl, rfl, leaves⟩
    all_goals contradiction
  · rintro ⟨text, pattern, rfl, rfl, rfl, simpler⟩
    exact simpler

/-- Of two literals only texts are left undecided by LIKE and are decided by what takes its
place. -/
theorem text_of_evaluate? {operator : Operator}
    (undecided : Operator.evaluate? .like value (.text pattern) = none)
    (simpler : operator = .equal ∨ operator = .startsWith)
    (decided : operator.evaluate? value (.text text) = some answer) :
    ∃ text, value = .text text := by
  cases value with
  | text value => exact ⟨value, rfl⟩
  | null => cases undecided
  | bool | int | uint | float | binary | object =>
    rcases simpler with rfl | rfl <;> cases decided

/-- After folding, two literals that planning can compare stand side by side only if they come from
a LIKE between them. -/
theorem unevaluated_foldComparison : (foldComparison operator left right).Unevaluated ↔
    (compare operator left right).LeavesLike := by
  rw [leavesLike_compare]
  constructor
  · intro unevaluated
    rcases foldComparison_cases operator left right with
      ⟨_, _, value, _, _, _, folded⟩ | ⟨undecided, folded⟩
    · rw [folded] at unevaluated
      simp [Unevaluated] at unevaluated
    rw [folded] at unevaluated
    rcases simplifyLike_cases operator left right with
      ⟨_, same⟩ | ⟨pattern, simpler, text, rfl, rfl, special, either, made⟩
    · rw [same] at unevaluated
      obtain ⟨first, second, value, rfl, rfl, decided⟩ := unevaluated_compare.mp unevaluated
      rw [undecided first second rfl rfl] at decided
      cases decided
    · rw [made] at unevaluated
      obtain ⟨first, second, value, rfl, same, decided⟩ := unevaluated_compare.mp unevaluated
      cases same
      obtain ⟨own, rfl⟩ := text_of_evaluate? (undecided first _ rfl rfl) either decided
      exact ⟨own, pattern, rfl, rfl, rfl, special⟩
  · rintro ⟨text, pattern, rfl, rfl, rfl, simpler⟩
    have kept : foldComparison .like (.literal (.text text)) (.literal (.text pattern)) =
        simplifyLike .like (.literal (.text text)) (.literal (.text pattern)) := rfl
    rw [kept, simplifyLike]
    cases read : Pattern.ofText pattern with
    | exact found => exact unevaluated_compare.mpr ⟨_, _, _, rfl, rfl, rfl⟩
    | beginning found => exact unevaluated_compare.mpr ⟨_, _, _, rfl, rfl, rfl⟩
    | general => exact absurd read simpler

theorem unevaluated_fold : condition.fold.Unevaluated ↔ condition.LeavesLike := by
  induction condition with
  | truth | isType => simp [Unevaluated, fold, LeavesLike]
  | compare operator left right => exact unevaluated_foldComparison
  | and left right lefts rights => rw [fold, unevaluated_foldAnd, lefts, rights, LeavesLike]
  | or left right lefts rights => rw [fold, unevaluated_foldOr, lefts, rights, LeavesLike]
  | not inner inners => rw [fold, unevaluated_foldNot, inners, LeavesLike]

/-! ## Settled conditions -/

/-- Folding finds nothing to do in the condition. -/
def Settled : Condition → Prop
  | truth _ | isType .. => True
  | compare operator left right =>
    foldComparison operator left right = compare operator left right
  | and left right => left.Settled ∧ right.Settled ∧ foldAnd left right = and left right
  | or left right => left.Settled ∧ right.Settled ∧ foldOr left right = or left right
  | not inner => inner.Settled ∧ foldNot inner = not inner

theorem Settled.fold_eq (settled : condition.Settled) : condition.fold = condition := by
  induction condition with
  | truth | isType => rfl
  | compare operator left right => exact settled
  | and left right lefts rights => rw [fold, lefts settled.1, rights settled.2.1, settled.2.2]
  | or left right lefts rights => rw [fold, lefts settled.1, rights settled.2.1, settled.2.2]
  | not inner inners => rw [fold, inners settled.1, settled.2]

theorem settled_compare (ordinary : operator ≠ .like)
    (evaluated : ¬(compare operator left right).Unevaluated) :
    (compare operator left right).Settled := by
  rcases foldComparison_cases operator left right with
    ⟨first, second, value, rfl, rfl, decided, _⟩ | ⟨_, folded⟩
  · exact absurd (unevaluated_compare.mpr ⟨first, second, value, rfl, rfl, decided⟩) evaluated
  · rcases simplifyLike_cases operator left right with ⟨_, same⟩ | ⟨_, _, _, isLike, _⟩
    · exact folded.trans same
    · exact absurd isLike ordinary

theorem settled_foldComparison (evaluated : ¬(foldComparison operator left right).Unevaluated) :
    (foldComparison operator left right).Settled := by
  rcases foldComparison_cases operator left right with
    ⟨_, _, value, _, _, _, folded⟩ | ⟨_, folded⟩
  · rw [folded]
    trivial
  rcases simplifyLike_cases operator left right with
    ⟨_, same⟩ | ⟨_, simpler, _, _, _, _, either, made⟩
  · rw [folded, same]
    exact folded.trans same
  · rw [folded, made] at evaluated ⊢
    refine settled_compare ?_ evaluated
    rcases either with rfl | rfl <;> simp

/-- An operand that FALSE absorbs need not be settled. -/
theorem settled_foldAnd (evaluated : ¬(foldAnd left right).Unevaluated)
    (lefts : ¬left.Unevaluated → left.Settled) (rights : ¬right.Unevaluated → right.Settled) :
    (foldAnd left right).Settled := by
  -- What is left undecided in an operand is left in the whole, unless FALSE absorbs the operand.
  have onLeft : right ≠ truth .isFalse → left.Settled := fun other =>
    lefts fun inside => evaluated (unevaluated_foldAnd.mpr (.inl ⟨inside, other⟩))
  have onRight : left ≠ truth .isFalse → right.Settled := fun other =>
    rights fun inside => evaluated (unevaluated_foldAnd.mpr (.inr ⟨inside, other⟩))
  unfold foldAnd
  split
  · trivial
  · trivial
  · exact onRight (by simp)
  · exact onLeft (by simp)
  · rename_i leftOther _ rightOther _
    refine ⟨onLeft rightOther, onRight leftOther, ?_⟩
    unfold foldAnd
    split <;> simp_all

theorem settled_foldOr (evaluated : ¬(foldOr left right).Unevaluated)
    (lefts : ¬left.Unevaluated → left.Settled) (rights : ¬right.Unevaluated → right.Settled) :
    (foldOr left right).Settled := by
  have onLeft : right ≠ truth .isTrue → left.Settled := fun other =>
    lefts fun inside => evaluated (unevaluated_foldOr.mpr (.inl ⟨inside, other⟩))
  have onRight : left ≠ truth .isTrue → right.Settled := fun other =>
    rights fun inside => evaluated (unevaluated_foldOr.mpr (.inr ⟨inside, other⟩))
  unfold foldOr
  split
  · trivial
  · trivial
  · exact onRight (by simp)
  · exact onLeft (by simp)
  · rename_i leftOther _ rightOther _
    refine ⟨onLeft rightOther, onRight leftOther, ?_⟩
    unfold foldOr
    split <;> simp_all

theorem settled_foldNot (settled : inner.Settled) : (foldNot inner).Settled := by
  unfold foldNot
  split
  · trivial
  · trivial
  · trivial
  · refine ⟨settled, ?_⟩
    unfold foldNot
    split <;> simp_all

/-- What folding makes is settled, but for comparisons of literals that it has not evaluated. -/
theorem settled_fold (evaluated : ¬condition.fold.Unevaluated) : condition.fold.Settled := by
  induction condition with
  | truth | isType => trivial
  | compare operator left right => exact settled_foldComparison evaluated
  | and left right lefts rights => exact settled_foldAnd evaluated lefts rights
  | or left right lefts rights => exact settled_foldOr evaluated lefts rights
  | not inner inners => exact settled_foldNot (inners (mt unevaluated_foldNot.mpr evaluated))

/-! ## A second pass -/

theorem compares_of_leavesLike (leaves : condition.LeavesLike) :
    ∃ text pattern, condition.Compares .like (.literal (.text text)) (.literal (.text pattern)) ∧
      Pattern.ofText pattern ≠ .general := by
  induction condition with
  | truth | isType => cases leaves
  | compare operator left right =>
    obtain ⟨text, pattern, rfl, rfl, rfl, simpler⟩ := leavesLike_compare.mp leaves
    exact ⟨text, pattern, .here, simpler⟩
  | and left right lefts rights =>
    simp only [compares_and, or_and_right, exists_or]
    exact leaves.imp (fun inside => lefts inside.1) fun inside => rights inside.1
  | or left right lefts rights =>
    simp only [compares_or, or_and_right, exists_or]
    exact leaves.imp (fun inside => lefts inside.1) fun inside => rights inside.1
  | not inner inners =>
    simp only [compares_not]
    exact inners leaves

/-- Where LIKE is left, its pattern needs matching. -/
theorem general_of_compares_fold
    (compares : condition.fold.Compares .like left (.literal (.text pattern))) :
    Pattern.ofText pattern = .general := by
  obtain ⟨operator, first, second, _, made⟩ := compares_fold compares
  rcases foldComparison_cases operator first second with
    ⟨_, _, value, _, _, _, folded⟩ | ⟨_, folded⟩
  · rw [folded] at made
    cases made
  rcases simplifyLike_cases operator first second with
    ⟨general, same⟩ | ⟨_, simpler, _, _, _, _, either, simplified⟩
  · rw [folded, same] at made
    cases made
    exact general pattern rfl rfl
  · rw [folded, simplified] at made
    cases made
    simp at either

/-- No LIKE has a literal pattern with a simpler comparison. -/
def Matching (condition : Condition) : Prop :=
  ∀ left pattern, condition.Compares .like left (.literal (.text pattern)) →
    Pattern.ofText pattern = .general

theorem Matching.not_leavesLike (matching : condition.Matching) : ¬condition.LeavesLike := by
  intro leaves
  obtain ⟨text, pattern, stands, simpler⟩ := compares_of_leavesLike leaves
  exact simpler (matching _ pattern stands)

theorem matching_fold (condition : Condition) : condition.fold.Matching :=
  fun _ _ compares => general_of_compares_fold compares

/-- A condition without patterns to simplify that folding leaves as it is has been evaluated. -/
theorem evaluated_of_fold_eq (matching : condition.Matching) (same : condition.fold = condition) :
    ¬condition.Unevaluated := by
  rw [← same, unevaluated_fold]
  exact matching.not_leavesLike

theorem fold_fold_iff : condition.fold.fold = condition.fold ↔ ¬condition.LeavesLike := by
  rw [← unevaluated_fold]
  exact ⟨evaluated_of_fold_eq (matching_fold condition), fun evaluated =>
    (settled_fold evaluated).fold_eq⟩

theorem fold_fold_fold (condition : Condition) :
    condition.fold.fold.fold = condition.fold.fold :=
  fold_fold_iff.mpr (matching_fold condition).not_leavesLike

/-! ## Conjuncts -/

theorem compares_iff_conjunct : condition.Compares operator left right ↔
    ∃ conjunct ∈ condition.conjuncts, conjunct.Compares operator left right := by
  induction condition with
  | and first second ofFirst ofSecond =>
    simp only [compares_and, ofFirst, ofSecond, conjuncts, List.mem_append, or_and_right,
      exists_or]
  | truth | isType | compare | or | not => simp [conjuncts]

theorem Settled.conjunct {conjunct : Condition} (settled : condition.Settled)
    (member : conjunct ∈ condition.conjuncts) : conjunct.Settled := by
  induction condition with
  | and first second ofFirst ofSecond =>
    rcases List.mem_append.mp member with inFirst | inSecond
    · exact ofFirst settled.1 inFirst
    · exact ofSecond settled.2.1 inSecond
  | truth | isType | compare | or | not =>
    rw [List.mem_singleton.mp member]
    exact settled

end Condition

namespace ConjunctTable

variable {table : ConjunctTable}

/-- Every stored conjunct is what folding makes of it, and none is constantly true. -/
def Folded (table : ConjunctTable) : Prop :=
  ∀ conjunct ∈ table.conditions, conjunct.fold = conjunct ∧ conjunct.fold ≠ .truth .isTrue

theorem mem_insert_iff :
    stored ∈ (table.insert key condition).conditions ↔
      stored = condition ∨ stored ∈ table.conditions := by
  have inGroups : ∀ groups : List ConjunctGroup,
      stored ∈ (insertInto key condition groups).flatMap (·.conditions) ↔
        stored = condition ∨ stored ∈ groups.flatMap (·.conditions) := by
    intro groups
    induction groups with
    | nil => simp [insertInto]
    | cons group rest ih =>
      rw [insertInto]
      split
      · simp [or_left_comm]
      · split
        · simp
        · simp only [List.flatMap_cons, List.mem_append, ih, or_left_comm]
  exact inGroups table.groups

/-- What a table stores after an addition was stored before or is a new conjunct other than TRUE. -/
theorem of_mem_addConjuncts {stored : Condition} {added : List Condition}
    (member : stored ∈ (table.addConjuncts added).1.conditions) :
    stored ∈ table.conditions ∨ stored ∈ added ∧ stored.isTrueLiteral = false := by
  induction added generalizing table with
  | nil => exact .inl member
  | cons condition rest ih =>
    rw [addConjuncts] at member
    split at member
    · exact (ih member).imp_right (.imp_left (List.mem_cons_of_mem _))
    · rename_i notTrue
      split at member
      · rcases ih member with before | ⟨new, other⟩
        · rcases mem_insert_iff.mp before with rfl | old
          · exact .inr ⟨List.mem_cons_self, by simpa using notTrue⟩
          · exact .inl old
        · exact .inr ⟨List.mem_cons_of_mem _ new, other⟩
      · exact .inl member

/-- An addition that succeeds stores every conjunct other than TRUE, and keeps those stored. -/
theorem mem_addConjuncts {stored : Condition} {added : List Condition}
    (ran : (table.addConjuncts added).2 = .ok ())
    (given : stored ∈ table.conditions ∨ stored ∈ added ∧ stored.isTrueLiteral = false) :
    stored ∈ (table.addConjuncts added).1.conditions := by
  induction added generalizing table with
  | nil => exact given.resolve_right (by simp)
  | cons condition rest ih =>
    rw [addConjuncts] at ran ⊢
    split at ran
    · rename_i isTrue
      rw [if_pos isTrue]
      refine ih ran (given.imp_right ?_)
      rintro ⟨new, notTrue⟩
      rcases List.mem_cons.mp new with rfl | later
      · cases isTrue.symm.trans notTrue
      · exact ⟨later, notTrue⟩
    · rename_i notTrue
      split at ran
      · rw [if_neg notTrue]
        refine ih ran ?_
        rcases given with old | ⟨new, other⟩
        · exact .inl (mem_insert_iff.mpr (.inr old))
        · rcases List.mem_cons.mp new with rfl | later
          · exact .inl (mem_insert_iff.mpr (.inl rfl))
          · exact .inr ⟨later, other⟩
      · cases ran

end ConjunctTable

namespace Condition

theorem isTrueLiteral_eq_false : condition.isTrueLiteral = false ↔ condition ≠ truth .isTrue := by
  cases condition with
  | truth value => cases value <;> simp [isTrueLiteral]
  | compare | isType | and | or | not => simp [isTrueLiteral]

/-- A table keeps to folded conjuncts when no LIKE is left to be simplified, even if it cannot store
all of them. -/
theorem folded_add {table : ConjunctTable} (folded : table.Folded)
    (once : ¬condition.LeavesLike) : (table.add condition).1.Folded := by
  intro stored member
  rcases ConjunctTable.of_mem_addConjuncts member with old | ⟨new, notTrue⟩
  · exact folded stored old
  · have settled := settled_fold (mt unevaluated_fold.mp once)
    have same := (settled.conjunct new).fold_eq
    refine ⟨same, ?_⟩
    rw [same]
    exact isTrueLiteral_eq_false.mp notTrue

/-- A comparison of literals that one pass leaves is stored with its conjunct, which is not
folded. -/
theorem not_leavesLike_of_folded {table : ConjunctTable} (ran : (table.add condition).2 = .ok ())
    (after : (table.add condition).1.Folded) : ¬condition.LeavesLike := by
  rw [← unevaluated_fold]
  rintro ⟨operator, left, right, value, compares, decided⟩
  obtain ⟨conjunct, member, inside⟩ := compares_iff_conjunct.mp compares
  have notTrue : conjunct.isTrueLiteral = false := by
    rw [isTrueLiteral_eq_false]
    rintro rfl
    cases inside
  have stored := ConjunctTable.mem_addConjuncts ran (.inr ⟨member, notTrue⟩)
  have matching : conjunct.Matching := fun _ _ stands =>
    matching_fold condition _ _ (compares_iff_conjunct.mpr ⟨conjunct, member, stands⟩)
  exact evaluated_of_fold_eq matching (after conjunct stored).1
    ⟨operator, left, right, value, inside, decided⟩

/-- Folding a condition reaches a fixed point in one pass, and leaves no comparison of literals that
planning can tell, exactly if no LIKE between literal texts is left to be simplified; then, too,
tables store folded conjuncts only, none of them TRUE. A second pass always reaches the fixed
point. -/
theorem folds_once_iff (condition : Condition) :
    (condition.fold.fold = condition.fold ↔ ¬condition.LeavesLike) ∧
      (¬condition.fold.Unevaluated ↔ ¬condition.LeavesLike) ∧
      condition.fold.fold.fold = condition.fold.fold ∧
      ∀ table : ConjunctTable, table.Folded →
        (¬condition.LeavesLike → (table.add condition).1.Folded) ∧
        ((table.add condition).2 = .ok () → (table.add condition).1.Folded →
          ¬condition.LeavesLike) :=
  ⟨fold_fold_iff, not_congr unevaluated_fold, fold_fold_fold condition, fun _ folded =>
    ⟨folded_add folded, not_leavesLike_of_folded⟩⟩

/-- One pass is enough for a condition whose patterns are all for paths. -/
theorem folds_once_iff_namedJo :
    (ConjunctTable.empty.add namedJo).2 = .ok () ∧
      (ConjunctTable.empty.add namedJo).1.Folded ∧ namedJo.fold.fold = namedJo.fold := by
  have once : ¬namedJo.LeavesLike := by simp [namedJo, LeavesLike]
  have folds := folds_once_iff namedJo
  have empty : ConjunctTable.empty.Folded := by
    intro conjunct member
    cases member
  have stored : (ConjunctTable.empty.add namedJo).1.Folded := (folds.2.2.2 .empty empty).1 once
  have added : (ConjunctTable.empty.add namedJo).2 = .ok () := by decide
  exact ⟨added, stored, folds.1.mpr ((folds.2.2.2 .empty empty).2 added stored)⟩

/-- A text compared by LIKE with itself. -/
def textLikeItself : Condition := .compare .like (.text "ab") (.text "ab")

/-- One pass makes it an equality of texts, which is stored as a conjunct though it is always
true. -/
theorem textLikeItself_folds_twice :
    textLikeItself.fold = .compare .equal (.text "ab") (.text "ab") ∧
      textLikeItself.fold.fold = .truth .isTrue ∧
      (ConjunctTable.empty.add textLikeItself).2 = .ok () ∧
      (ConjunctTable.empty.add textLikeItself).1.conditions = [textLikeItself.fold] := by
  decide

end Condition

end ExtentPlanner
