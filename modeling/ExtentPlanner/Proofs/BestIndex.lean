import ExtentPlanner.Visit.Coverage
import Mathlib.Algebra.Order.Group.Nat
import Mathlib.Data.List.Induction

/-! What the search for the best index finds. The score that it compares says no more than how many
leading columns are bounded, because the columns counted weigh what separates two powers of two. So
the search finds the first of the indexes with the most bounded columns, or nothing if no column of
any index is bounded. -/
namespace ExtentPlanner

/-! ## The score of a run -/

/-- A run that starts behind `position` columns weighs what separates two powers of two. -/
structure Coverage.Weighed (position : Nat) (coverage : Coverage) : Prop where
  within : position + coverage.columns ≤ maxIndexColumns
  score : coverage.score + 2 ^ (maxIndexColumns - (position + coverage.columns)) =
    2 ^ (maxIndexColumns - position)

theorem Coverage.Weighed.none (few : position ≤ maxIndexColumns) :
    Coverage.none.Weighed position :=
  ⟨few, Nat.zero_add _⟩

/-- One power of two is the next one twice. -/
theorem weight_add (few : position < maxIndexColumns) :
    1 <<< (maxIndexColumns - 1 - position) + 2 ^ (maxIndexColumns - (position + 1)) =
      2 ^ (maxIndexColumns - position) := by
  have next : maxIndexColumns - 1 - position = maxIndexColumns - (position + 1) := by omega
  have this : maxIndexColumns - position = maxIndexColumns - (position + 1) + 1 := by omega
  rw [Nat.one_shiftLeft, next, this, pow_succ, Nat.mul_two]

/-- A column in front weighs as much as all that could come behind it and one more. -/
theorem Coverage.Weighed.addColumn {coverage : Coverage} (few : position < maxIndexColumns)
    (weighed : coverage.Weighed (position + 1)) :
    (coverage.addColumn position).Weighed position := by
  obtain ⟨within, score⟩ := weighed
  have shifted : position + (coverage.columns + 1) = position + 1 + coverage.columns := by omega
  constructor
  · change position + (coverage.columns + 1) ≤ _
    rwa [shifted]
  · change 1 <<< _ + coverage.score + 2 ^ (_ - (position + (coverage.columns + 1))) = _
    rw [shifted, Nat.add_assoc, score, weight_add few]

theorem coverageFrom_weighed (comparisons : List ColumnComparison)
    (few : position ≤ maxIndexColumns) (columns : List IndexColumn) :
    (coverageFrom comparisons position columns).Weighed position := by
  induction columns generalizing position with
  | nil => exact .none few
  | cons column rest ih =>
    rw [coverageFrom]
    split
    · exact .none few
    · rename_i bounded
      rw [Bool.or_eq_true, not_or, decide_eq_true_eq, Nat.not_le] at bounded
      have more := bounded.2
      split
      · exact (ih more).addColumn more
      · exact (Coverage.Weighed.none more).addColumn more

namespace Index

theorem coverage_columns_le (index : Index) (comparisons : List ColumnComparison) :
    (index.coverage comparisons).columns ≤ maxIndexColumns := by
  rw [coverage, ← Nat.zero_add (coverageFrom ..).columns]
  exact (coverageFrom_weighed comparisons (Nat.zero_le _) index.columns).within

theorem coverage_score (index : Index) (comparisons : List ColumnComparison) :
    (index.coverage comparisons).score =
      2 ^ maxIndexColumns - 2 ^ (maxIndexColumns - (index.coverage comparisons).columns) := by
  have score := (coverageFrom_weighed comparisons (Nat.zero_le _) index.columns).score
  rw [Nat.zero_add, Nat.sub_zero] at score
  exact Nat.eq_sub_of_add_eq score

end Index

/-! ## The search for the longest run -/

/-- What a search finds that prefers large measures, earlier items among equals, and takes no item
that measures nothing. -/
inductive FirstGreatest (measure : Index → Nat) : List Index → Option Index → Prop where
  | nothing (zero : ∀ index ∈ indexes, measure index = 0) : FirstGreatest measure indexes none
  | found (positive : 0 < measure best) (before : ∀ index ∈ front, measure index < measure best)
    (after : ∀ index ∈ back, measure index ≤ measure best) :
    FirstGreatest measure (front ++ best :: back) (some best)

variable {measure other : Index → Nat} {indexes : List Index} {best? : Option Index}

theorem FirstGreatest.bound (greatest : FirstGreatest measure indexes best?) :
    ∀ index ∈ indexes, measure index ≤ best?.elim 0 measure := by
  intro index member
  cases greatest with
  | nothing zero => exact (zero index member).le
  | found _ before after =>
    rcases List.mem_append.mp member with first | second
    · exact (before index first).le
    · rcases List.mem_cons.mp second with rfl | later
      · exact le_rfl
      · exact after index later

/-- One more item is found only if its measure is larger than that of all before it. -/
theorem FirstGreatest.next (greatest : FirstGreatest measure indexes best?) (index : Index) :
    FirstGreatest measure (indexes ++ [index])
      (if best?.elim 0 measure < measure index then some index else best?) := by
  split
  · rename_i larger
    exact .found (Nat.zero_lt_of_lt larger)
      (fun earlier member => (greatest.bound earlier member).trans_lt larger) (by simp)
  · rename_i notLarger
    cases greatest with
    | nothing zero =>
      have zeroNext : ∀ next ∈ [index], measure next = 0 :=
        List.forall_mem_singleton.mpr (Nat.eq_zero_of_not_pos notLarger)
      exact .nothing (List.forall_mem_append.mpr ⟨zero, zeroNext⟩)
    | @found best _ _ positive before after =>
      rw [List.append_assoc, List.cons_append]
      have afterNext : ∀ next ∈ [index], measure next ≤ measure best :=
        List.forall_mem_singleton.mpr (Nat.le_of_not_lt notLarger)
      exact .found positive before (List.forall_mem_append.mpr ⟨after, afterNext⟩)

/-- The search finds the same by any measure that orders alike. -/
theorem FirstGreatest.of_alike (greatest : FirstGreatest measure indexes best?)
    (zero : ∀ index, other index = 0 ↔ measure index = 0)
    (less : ∀ first second, other first < other second ↔ measure first < measure second) :
    FirstGreatest other indexes best? := by
  cases greatest with
  | nothing zeros => exact .nothing fun index member => (zero index).mpr (zeros index member)
  | found positive before after =>
    refine .found ?_ (fun index member => ?_) fun index member => ?_
    · exact Nat.pos_of_ne_zero (mt (zero _).mp positive.ne')
    · exact (less _ _).mpr (before index member)
    · exact Nat.le_of_not_lt (mt (less _ _).mp (after index member).not_gt)

theorem foldl_betterIndex (comparisons : List ColumnComparison) (indexes : List Index) :
    ∃ best?, FirstGreatest (fun index => (index.coverage comparisons).score) indexes best? ∧
      indexes.foldl (betterIndex comparisons) (0, none) =
        (best?.elim 0 fun index => (index.coverage comparisons).score, best?) := by
  induction indexes using List.reverseRecOn with
  | nil => exact ⟨none, .nothing (by simp), rfl⟩
  | append_singleton earlier index ih =>
    obtain ⟨best?, greatest, same⟩ := ih
    refine ⟨_, greatest.next index, ?_⟩
    rw [List.foldl_append, same, List.foldl_cons, List.foldl_nil, betterIndex]
    split <;> rfl

namespace Index

/-- A score orders indexes as the number of their bounded columns does. -/
theorem coverage_score_lt_iff (first second : Index) (comparisons : List ColumnComparison) :
    (first.coverage comparisons).score < (second.coverage comparisons).score ↔
      (first.coverage comparisons).columns < (second.coverage comparisons).columns := by
  have within := second.coverage_columns_le comparisons
  have fits : 2 ^ (maxIndexColumns - (first.coverage comparisons).columns) ≤ 2 ^ maxIndexColumns :=
    Nat.pow_le_pow_right Nat.two_pos (Nat.sub_le _ _)
  have weights : 2 ^ (maxIndexColumns - (second.coverage comparisons).columns) <
      2 ^ (maxIndexColumns - (first.coverage comparisons).columns) ↔
        (first.coverage comparisons).columns < (second.coverage comparisons).columns := by
    rw [Nat.pow_lt_pow_iff_right Nat.one_lt_two]
    omega
  rw [coverage_score, coverage_score, ← weights]
  omega

theorem coverage_score_eq_zero_iff (index : Index) (comparisons : List ColumnComparison) :
    (index.coverage comparisons).score = 0 ↔ (index.coverage comparisons).columns = 0 := by
  have within := index.coverage_columns_le comparisons
  have positive : 0 < maxIndexColumns := by decide
  rw [coverage_score, Nat.sub_eq_zero_iff_le, Nat.pow_le_pow_iff_right Nat.one_lt_two]
  omega

end Index

/-- The best index is the first of those with the most bounded columns. -/
theorem bestIndex?_firstGreatest (comparisons : List ColumnComparison) (indexes : List Index) :
    FirstGreatest (fun index => (index.coverage comparisons).columns) indexes
      (bestIndex? comparisons indexes) := by
  obtain ⟨best?, greatest, same⟩ := foldl_betterIndex comparisons indexes
  rw [bestIndex?, same]
  exact greatest.of_alike (fun index => (index.coverage_score_eq_zero_iff comparisons).symm)
    fun first second => (first.coverage_score_lt_iff second comparisons).symm

theorem mem_of_bestIndex? {comparisons : List ColumnComparison} {indexes : List Index}
    (chosen : bestIndex? comparisons indexes = some index) : index ∈ indexes := by
  have greatest := bestIndex?_firstGreatest comparisons indexes
  rw [chosen] at greatest
  cases greatest
  exact List.mem_append_right _ List.mem_cons_self

/-- Without a best index, no index is bounded. -/
theorem unbounded_of_bestIndex? {comparisons : List ColumnComparison} {indexes : List Index}
    (unbounded : bestIndex? comparisons indexes = none) (member : index ∈ indexes) :
    (index.coverage comparisons).columns = 0 := by
  have greatest := bestIndex?_firstGreatest comparisons indexes
  rw [unbounded] at greatest
  cases greatest with | nothing zero => exact zero index member

end ExtentPlanner
