import ExtentPlanner.Proofs.BestIndex
import ExtentPlanner.Proofs.BoundedColumns
import ExtentPlanner.Proofs.ReorderedConjuncts
import Mathlib.Order.Bounds.Defs

/-! How well an index suits a list of comparisons. The walk over its columns counts the longest run
of leading columns that are bounded, with each but the last fixed by an equality. A run depends on
which comparisons there are and not on where they stand, so the index with the longest run is chosen
whatever the order of the conditions.

The walk is also done here as a loop in machine numbers that stops one column late and then takes
it back. No step of it leaves the range of these numbers. -/
namespace ExtentPlanner

variable {comparisons : List ColumnComparison} {column : IndexColumn}
  {columns rest : List IndexColumn}

/-! ## Runs of bounded columns -/

/-- The first `count` columns are bounded, and those before the last of them are fixed. -/
structure BoundedRun (comparisons : List ColumnComparison) (columns : List IndexColumn)
    (count : Nat) : Prop where
  within : count ≤ columns.length
  compared : ∀ column ∈ columns.take count, column.Compared comparisons
  fixed : ∀ column ∈ columns.take (count - 1), column.Fixed comparisons

theorem BoundedRun.zero (comparisons : List ColumnComparison) (columns : List IndexColumn) :
    BoundedRun comparisons columns 0 :=
  ⟨Nat.zero_le _, by simp, by simp⟩

/-- A longer run goes on behind a first column that is fixed. -/
theorem boundedRun_cons : BoundedRun comparisons (column :: rest) (count + 1) ↔
    column.Compared comparisons ∧
      (count = 0 ∨ column.Fixed comparisons ∧ BoundedRun comparisons rest count) := by
  constructor
  · rintro ⟨within, compared, fixed⟩
    rw [List.take_succ_cons, List.forall_mem_cons] at compared
    refine ⟨compared.1, ?_⟩
    cases count with
    | zero => exact .inl rfl
    | succ count =>
      rw [Nat.add_sub_cancel, List.take_succ_cons, List.forall_mem_cons] at fixed
      exact .inr ⟨fixed.1, Nat.le_of_succ_le_succ within, compared.2, fixed.2⟩
  · rintro ⟨first, rfl | ⟨fixed, more⟩⟩
    · exact ⟨by simp, by simpa using first, by simp⟩
    · refine ⟨Nat.succ_le_succ more.within, ?_, ?_⟩
      · rw [List.take_succ_cons, List.forall_mem_cons]
        exact ⟨first, more.compared⟩
      · cases count with
        | zero => simp
        | succ count =>
          rw [Nat.add_sub_cancel, List.take_succ_cons, List.forall_mem_cons]
          exact ⟨fixed, more.fixed⟩

/-- A column in front makes the longest run longer by one if it is fixed, and ends it if not. -/
theorem BoundedRun.le_cons (run : BoundedRun comparisons (column :: rest) count)
    (longest : most ∈ upperBounds {count | BoundedRun comparisons rest count}) :
    count ≤ if column.Fixed comparisons then most + 1
      else if column.Compared comparisons then 1 else 0 := by
  cases count with
  | zero => exact Nat.zero_le _
  | succ count =>
    obtain ⟨compared, rfl | ⟨fixed, more⟩⟩ := boundedRun_cons.mp run
    · rw [if_pos compared]
      split
      · exact Nat.le_add_left 1 most
      · exact Nat.le_refl 1
    · rw [if_pos fixed]
      exact Nat.succ_le_succ (longest more)

/-- The walk counts the longest run. -/
theorem coverageFrom_isGreatest (few : position + columns.length ≤ maxIndexColumns) :
    IsGreatest {count | BoundedRun comparisons columns count}
      (coverageFrom comparisons position columns).columns := by
  induction columns generalizing position with
  | nil => exact ⟨.zero _ _, fun _ run => run.within⟩
  | cons column rest ih =>
    rw [List.length_cons] at few
    have fewer : position + 1 + rest.length ≤ maxIndexColumns := by omega
    obtain ⟨run, longest⟩ := ih fewer
    rw [coverageFrom_columns (by omega)]
    refine ⟨?_, fun count other => BoundedRun.le_cons other longest⟩
    split
    · rename_i fixed
      exact boundedRun_cons.mpr ⟨fixed.compared, .inr ⟨fixed, run⟩⟩
    · split
      · rename_i compared
        exact boundedRun_cons.mpr ⟨compared, .inl rfl⟩
      · exact .zero _ _

theorem coverageFrom_full (full : maxIndexColumns ≤ position) (columns : List IndexColumn) :
    coverageFrom comparisons position columns = .none := by
  cases columns with
  | nil => rfl
  | cons column rest => simp [coverageFrom, full]

/-! ## The walk in machine numbers -/

/-- A difference that is not below zero. -/
def difference? (larger smaller : Nat) : Option Nat :=
  if smaller ≤ larger then some (larger - smaller) else none

/-- A number of 64 bits. -/
def word? (number : Nat) : Option Nat := if number < 2 ^ 64 then some number else none

/-- One bit of a number of 64 bits. -/
def bit? (place : Nat) : Option Nat := if place < 64 then some (1 <<< place) else none

/-- How far a walk over the columns of an index has come. -/
structure ColumnWalk where
  score : Nat
  /-- The number of columns seen. -/
  passed : Nat
  /-- Whether the last column seen is bounded. -/
  matched : Bool
  /-- Whether the last column seen is fixed by an equality. -/
  equality : Bool

namespace ColumnWalk

def start : ColumnWalk := ⟨0, 0, true, true⟩

def continues (walk : ColumnWalk) : Bool := walk.passed < maxIndexColumns && walk.equality

/-- What a bounded column adds. -/
def weight? (walk : ColumnWalk) : Option Nat :=
  (difference? maxIndexColumns 1).bind fun last => (difference? last walk.passed).bind bit?

/-- Looks at one more column. -/
def step? (comparisons : List ColumnComparison) (walk : ColumnWalk) (column : IndexColumn) :
    Option ColumnWalk :=
  let bounds := comparisons.filter fun comparison => comparison.column == column.path
  let equality := bounds.any fun comparison => comparison.operator == .equal
  if bounds.isEmpty then some ⟨walk.score, walk.passed + 1, false, equality⟩
  else
    (walk.weight?.bind fun weight => word? (walk.score + weight)).map fun score =>
      ⟨score, walk.passed + 1, true, equality⟩

/-- Looks at columns until one of them is not fixed. -/
def run? (comparisons : List ColumnComparison) (walk : ColumnWalk) :
    List IndexColumn → Option ColumnWalk
  | [] => some walk
  | column :: rest =>
    if walk.continues then
      (walk.step? comparisons column).bind fun next => next.run? comparisons rest
    else some walk

/-- Takes back the last column seen if it is not bounded. -/
def coverage? (walk : ColumnWalk) : Option Coverage :=
  (if walk.matched then some walk.passed else difference? walk.passed 1).map fun columns =>
    ⟨walk.score, columns⟩

/-- All columns seen so far are fixed. -/
structure Open (walk : ColumnWalk) : Prop where
  within : walk.passed ≤ maxIndexColumns
  score : walk.score + 2 ^ (maxIndexColumns - walk.passed) = 2 ^ maxIndexColumns
  matched : walk.matched = true
  equality : walk.equality = true

variable {walk : ColumnWalk}

theorem start_open : start.Open := ⟨Nat.zero_le _, Nat.zero_add _, rfl, rfl⟩

theorem Open.continues (walking : walk.Open) (more : walk.passed < maxIndexColumns) :
    walk.continues = true := by
  simp [ColumnWalk.continues, more, walking.equality]

theorem weight?_eq (more : walk.passed < maxIndexColumns) :
    walk.weight? = some (1 <<< (maxIndexColumns - 1 - walk.passed)) := by
  have last : difference? maxIndexColumns 1 = some (maxIndexColumns - 1) := rfl
  have place : difference? (maxIndexColumns - 1) walk.passed =
      some (maxIndexColumns - 1 - walk.passed) := if_pos (Nat.le_sub_one_of_lt more)
  have inWord : maxIndexColumns - 1 - walk.passed < 64 :=
    Nat.lt_of_le_of_lt (Nat.sub_le _ _) (by decide)
  rw [weight?, last, Option.bind_some, place, Option.bind_some, bit?, if_pos inWord]

/-- The score of an open walk has room for one more column. -/
theorem Open.word?_eq (walking : walk.Open) (more : walk.passed < maxIndexColumns) :
    word? (walk.score + 1 <<< (maxIndexColumns - 1 - walk.passed)) =
      some (walk.score + 1 <<< (maxIndexColumns - 1 - walk.passed)) := by
  have room : walk.score + 1 <<< (maxIndexColumns - 1 - walk.passed) ≤ 2 ^ maxIndexColumns := by
    rw [← walking.score, ← weight_add more, ← Nat.add_assoc]
    exact Nat.le_add_right _ _
  exact if_pos (Nat.lt_of_le_of_lt room (by decide))

/-- What an open walk makes of its next column. -/
theorem Open.step?_eq (walking : walk.Open) (more : walk.passed < maxIndexColumns)
    (column : IndexColumn) : walk.step? comparisons column = some
      (if column.Compared comparisons then
        ⟨walk.score + 1 <<< (maxIndexColumns - 1 - walk.passed), walk.passed + 1, true,
          column.Fixed comparisons⟩
      else ⟨walk.score, walk.passed + 1, false, false⟩) := by
  have fixes : (comparisons.filter fun comparison => comparison.column == column.path).any
      (fun comparison => comparison.operator == .equal) = decide (column.Fixed comparisons) :=
    Bool.eq_iff_iff.mpr (by rw [IndexColumn.bounds_any_equal_iff, decide_eq_true_iff])
  rw [step?, fixes]
  by_cases compared : column.Compared comparisons
  · rw [if_neg (IndexColumn.bounds_isEmpty_iff.not.mpr (not_not.mpr compared)), if_pos compared,
      weight?_eq more, Option.bind_some, walking.word?_eq more, Option.map_some]
  · have loose : ¬column.Fixed comparisons := mt IndexColumn.Fixed.compared compared
    rw [if_pos (IndexColumn.bounds_isEmpty_iff.mpr compared), if_neg compared,
      decide_eq_false loose]

/-- The walk stays open behind a fixed column. -/
theorem Open.fixed (walking : walk.Open) (more : walk.passed < maxIndexColumns) :
    Open ⟨walk.score + 1 <<< (maxIndexColumns - 1 - walk.passed), walk.passed + 1, true, true⟩ := by
  refine ⟨more, ?_, rfl, rfl⟩
  dsimp only
  rw [Nat.add_assoc, weight_add more]
  exact walking.score

theorem run?_stopped (stopped : walk.continues = false) (columns : List IndexColumn) :
    walk.run? comparisons columns = some walk := by
  cases columns with
  | nil => rfl
  | cons column rest => rw [run?, stopped, if_neg Bool.false_ne_true]

theorem continues_loose (score passed : Nat) (matched : Bool) :
    continues ⟨score, passed, matched, false⟩ = false :=
  Bool.and_false _

/-- The last column can be taken back, because it has been counted. -/
theorem coverage?_unmatched (score passed : Nat) (equality : Bool) :
    coverage? ⟨score, passed + 1, false, equality⟩ = some ⟨score, passed⟩ := by
  have back : difference? (passed + 1) 1 = some passed := if_pos (Nat.le_add_left 1 passed)
  rw [coverage?, if_neg Bool.false_ne_true, back, Option.map_some]

theorem Open.coverage?_eq (walking : walk.Open) :
    walk.coverage? = some ⟨walk.score, walk.passed⟩ := by
  rw [coverage?, walking.matched, if_pos rfl, Option.map_some]

/-- From an open walk on, no step fails, and the rest of the columns is covered as far as the
recursion says. -/
theorem Open.run?_eq (walking : walk.Open) (columns : List IndexColumn) :
    (walk.run? comparisons columns).bind coverage? =
      some ⟨walk.score + (coverageFrom comparisons walk.passed columns).score,
        walk.passed + (coverageFrom comparisons walk.passed columns).columns⟩ := by
  induction columns generalizing walk with
  | nil => exact walking.coverage?_eq
  | cons column rest ih =>
    rcases walking.within.eq_or_lt with full | more
    · have stopped : walk.continues = false := by simp [ColumnWalk.continues, full]
      rw [run?_stopped stopped, coverageFrom_full full.ge]
      exact walking.coverage?_eq
    · rw [run?, if_pos (walking.continues more), walking.step?_eq more, Option.bind_some,
        coverageFrom_cons more]
      by_cases fixed : column.Fixed comparisons
      · rw [if_pos fixed.compared, if_pos fixed, decide_eq_true fixed, ih (walking.fixed more),
          Coverage.addColumn, Nat.add_assoc, Nat.add_assoc, Nat.add_comm 1]
      · -- The loop ends behind this column and counts it only if it is bounded.
        rw [if_neg fixed, decide_eq_false fixed]
        split
        · rw [run?_stopped (continues_loose _ _ _), Option.bind_some]
          rfl
        · rw [run?_stopped (continues_loose _ _ _), Option.bind_some, coverage?_unmatched]
          rfl

end ColumnWalk

/-- No difference and no bit that the loop takes is out of range, for whatever columns. -/
theorem Index.columnWalk_coverage (index : Index) (comparisons : List ColumnComparison) :
    (ColumnWalk.start.run? comparisons index.columns).bind ColumnWalk.coverage? =
      some (index.coverage comparisons) := by
  rw [ColumnWalk.start_open.run?_eq]
  simp only [ColumnWalk.start, Nat.zero_add]
  rfl

/-- The walk over the columns of an index finds the longest run of bounded columns, with the score
that goes with it, and stays within machine numbers. So a visit that needs a scan gets the first
index of its class with the longest run, whatever the order of its conditions. -/
theorem best_index_bounds_most :
    (∀ (index : Index) (comparisons : List ColumnComparison),
      index.columns.length ≤ maxIndexColumns → ∃ bounded,
        IsGreatest {count | BoundedRun comparisons index.columns count} bounded ∧
        index.coverage comparisons = ⟨2 ^ 10 - 2 ^ (10 - bounded), bounded⟩ ∧
        (ColumnWalk.start.run? comparisons index.columns).bind ColumnWalk.coverage? =
          some (index.coverage comparisons)) ∧
    ∀ generation history (visit : Visit),
      visit.NeedsScan ((Catalog.empty generation).declareAll history) →
      ∃ bounded : Index → Nat,
        (∀ index ∈ ((Catalog.empty generation).declareAll history).indexesFor visit.typeName,
          IsGreatest {count | BoundedRun visit.comparisons index.columns count} (bounded index)) ∧
        ∃ best?, FirstGreatest bounded
            (((Catalog.empty generation).declareAll history).indexesFor visit.typeName) best? ∧
          ∀ conditions, visit.conditions.Perm conditions → ∃ result,
            { visit with conditions }.evaluate ((Catalog.empty generation).declareAll history) =
              .ok result ∧ result.bestIndex? = best? := by
  constructor
  · intro index comparisons few
    refine ⟨_, coverageFrom_isGreatest (by rwa [Nat.zero_add]), ?_,
      index.columnWalk_coverage comparisons⟩
    exact congrArg (Coverage.mk · _) (index.coverage_score comparisons)
  · intro generation history visit needsScan
    have declared := (Catalog.Declared.empty generation).declareAll history
    refine ⟨fun index => (index.coverage visit.comparisons).columns, fun index member => ?_,
      _, bestIndex?_firstGreatest _ _, fun conditions reordered => ?_⟩
    · have few := declared.columns_length (Catalog.mem_indexesFor_iff.mp member).1
      exact coverageFrom_isGreatest (by rwa [Nat.zero_add])
    · have needsScan : Visit.NeedsScan _ { visit with conditions } :=
        needsScan.of_subset rfl rfl reordered.symm.subset
      exact ⟨_, needsScan.evaluate, bestIndex?_perm (reordered.filterMap _) _⟩

/-- An index of persons that an index of employees comes before. -/
def cityThenAge : Index :=
  ⟨"CityAge", "Person", [⟨"city", .ascending, .string⟩, ⟨"age", .descending, .integer⟩,
    ⟨"name", .ascending, .string⟩]⟩

def cityHistory : List Catalog.Declaration :=
  [.type "Person" none, .index cityThenAge.name "Person" cityThenAge.columns,
    .type "Employee" (some "Person"),
    .index "EmployeeCity" "Employee" [⟨"city", .ascending, .string⟩]]

/-- Employees of one city up to an age. -/
def citizens : Visit :=
  (Visit.unplanned 0 "Employee").addConditions [.compare .less (.path 0 ["age"]) (.parameter 1),
    .compare .equal (.path 0 ["city"]) (.parameter 0)]

/-- Two of three columns are bounded, which is more than the index of employees has. -/
theorem best_index_bounds_most_citizens :
    IsGreatest {count | BoundedRun citizens.comparisons cityThenAge.columns count} 2 ∧
      cityThenAge.coverage citizens.comparisons = ⟨768, 2⟩ ∧
      ∃ result, { citizens with conditions := citizens.conditions.reverse }.evaluate
          ((Catalog.empty 0).declareAll cityHistory) = .ok result ∧
        result.bestIndex? = some cityThenAge := by
  have needsScan : citizens.NeedsScan ((Catalog.empty 0).declareAll cityHistory) :=
    ⟨by decide, rfl, by decide, by decide⟩
  obtain ⟨covered, searched⟩ := best_index_bounds_most
  have covers : cityThenAge.coverage citizens.comparisons = ⟨768, 2⟩ := by decide
  obtain ⟨bounded, longest, closed, _⟩ := covered cityThenAge citizens.comparisons (by decide)
  obtain rfl : 2 = bounded := congrArg Coverage.columns (covers.symm.trans closed)
  obtain ⟨_, _, best?, _, each⟩ := searched 0 cityHistory citizens needsScan
  obtain ⟨result, ran, best⟩ := each _ citizens.conditions.reverse_perm.symm
  obtain ⟨original, evaluated, found⟩ := each _ (.refl _)
  have same : some cityThenAge = best? := by
    rw [← found]
    exact congrArg (fun outcome => outcome.toOption.bind (·.bestIndex?)) evaluated
  exact ⟨longest, covers, result, ran, best.trans same.symm⟩

end ExtentPlanner
