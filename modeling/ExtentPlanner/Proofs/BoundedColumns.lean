import ExtentPlanner.Proofs.DeclaredNames
import ExtentPlanner.Proofs.PathConditions
import Mathlib.Data.List.Nodup

/-! The bounds of index scans. One walk over the columns of an index counts how many of them the
comparisons bound; another takes the comparisons off the conditions, column by column. Where a path
stands twice among the columns, the first walk counts it twice, and the second finds nothing left
for it the second time. So the bounded columns are the leading ones, each but the last fixed by an
equality, exactly if no column is bounded behind a repeated one. -/
namespace ExtentPlanner

/-! ## Comparisons on columns -/

/-- The range point by which a comparison bounds its column. -/
def ColumnComparison.point (comparison : ColumnComparison) : RangePoint :=
  ⟨comparison.operator, comparison.value⟩

/-- The range points by which comparisons bound a column, in order. -/
def pointsOn (comparisons : List ColumnComparison) (column : String) : List RangePoint :=
  (comparisons.filter (·.column == column)).map (·.point)

/-- The comparisons with columns of an extent that are among conditions, in order. -/
def comparisonsAmong (extent : Nat) (conditions : List Condition) : List ColumnComparison :=
  conditions.filterMap (·.columnComparison? extent)

/-- Whether the condition is a comparison with a column of the extent. -/
def Condition.compares (extent : Nat) (column : String) (condition : Condition) : Bool :=
  (condition.columnComparison? extent).any (·.column == column)

namespace IndexColumn

/-- Some comparison bounds the column. -/
def Compared (comparisons : List ColumnComparison) (column : IndexColumn) : Prop :=
  ∃ comparison ∈ comparisons, comparison.column = column.path

/-- Some equality bounds the column. -/
def Fixed (comparisons : List ColumnComparison) (column : IndexColumn) : Prop :=
  ∃ comparison ∈ comparisons, comparison.column = column.path ∧ comparison.operator = .equal

instance (comparisons : List ColumnComparison) (column : IndexColumn) :
    Decidable (column.Compared comparisons) :=
  inferInstanceAs (Decidable (∃ comparison ∈ comparisons, _))

instance (comparisons : List ColumnComparison) (column : IndexColumn) :
    Decidable (column.Fixed comparisons) :=
  inferInstanceAs (Decidable (∃ comparison ∈ comparisons, _))

end IndexColumn

/-- Behind columns that are all fixed, one of them a repetition of another, stands a column that is
no repetition and is bounded. -/
def SkipsRepeat (comparisons : List ColumnComparison) (columns : List IndexColumn) : Prop :=
  ∃ before column after, columns = before ++ column :: after ∧
    ¬(before.map (·.path)).Nodup ∧ (∀ earlier ∈ before, earlier.Fixed comparisons) ∧
    column.path ∉ before.map (·.path) ∧ column.Compared comparisons

namespace ColumnRange

/-- Whether the range bounds the scan by a condition. -/
def takes (extent : Nat) (range : ColumnRange) (condition : Condition) : Bool :=
  !range.isFull && condition.compares extent range.column

/-- Leading ranges have points, of which those of all but the last have one of an equality; the
ranges behind them have no points. -/
def Leading (ranges : List ColumnRange) : Prop :=
  ∃ bounded full, ranges = bounded ++ full ∧ (∀ range ∈ bounded, range.points ≠ []) ∧
    (∀ range ∈ bounded.dropLast, ∃ point ∈ range.points, point.operator = .equal) ∧
    ∀ range ∈ full, range.points = []

/-- A range with points comes only behind one with an equality. -/
def Precedes (earlier later : ColumnRange) : Prop :=
  later.points ≠ [] → ∃ point ∈ earlier.points, point.operator = .equal

instance (earlier later : ColumnRange) : Decidable (Precedes earlier later) :=
  inferInstanceAs (Decidable (_ → _))

end ColumnRange

/-- The ranges and the filter of a scan are made of its conditions: each column of the index has a
range, in order; a range that has points has those of all comparisons on its column; and the filter
has the conditions that no range takes, behind them the declared class if it is not the one of the
index. -/
structure Visit.ScanBounds (visit : Visit) (index : Index) (conditions : List Condition)
    (ranges : List ColumnRange) (filter : Condition) : Prop where
  columns : (ranges.map fun range => (range.column, range.columnType)) =
    index.columns.map fun column => (column.path, column.columnType)
  points : ∀ range ∈ ranges, range.points ≠ [] →
    range.points = pointsOn (comparisonsAmong visit.extent conditions) range.column
  filter : filter = visit.guardedFilter index
    (conditions.filter fun condition => !ranges.any (·.takes visit.extent condition))

variable {comparisons : List ColumnComparison} {column : IndexColumn}
  {before columns : List IndexColumn} {ranges : List ColumnRange} {extent : Nat}

theorem Condition.compares_iff {condition : Condition} {column : String} :
    condition.compares extent column = true ↔ ∃ comparison,
      condition.columnComparison? extent = some comparison ∧ comparison.column = column := by
  rw [Condition.compares]
  cases condition.columnComparison? extent <;> simp

theorem pointsOn_ne_nil : pointsOn comparisons column.path ≠ [] ↔ column.Compared comparisons := by
  simp [pointsOn, IndexColumn.Compared]

theorem exists_equal_pointsOn : (∃ point ∈ pointsOn comparisons column.path,
    point.operator = .equal) ↔ column.Fixed comparisons := by
  simp [pointsOn, ColumnComparison.point, IndexColumn.Fixed, and_assoc]

theorem IndexColumn.Fixed.compared (fixed : column.Fixed comparisons) :
    column.Compared comparisons :=
  fixed.imp fun _ member => ⟨member.1, member.2.1⟩

/-- An index without repeated columns has none that a scan could skip. -/
theorem not_skipsRepeat_of_nodup (distinct : (columns.map (·.path)).Nodup) :
    ¬SkipsRepeat comparisons columns := by
  rintro ⟨before, column, after, rfl, repeated, _⟩
  rw [List.map_append] at distinct
  exact repeated (List.nodup_append.mp distinct).1

/-! ## Leading ranges -/

theorem ColumnRange.Leading.pairwise (leading : Leading ranges) : ranges.Pairwise Precedes := by
  obtain ⟨bounded, full, rfl, points, fixed, bare⟩ := leading
  refine List.pairwise_append.mpr ⟨?_, ?_, fun _ _ later inFull points =>
    (points (bare later inFull)).elim⟩
  · clear points
    induction bounded with
    | nil => exact .nil
    | cons first rest ih =>
      cases rest with
      | nil => exact List.pairwise_singleton _ _
      | cons second others =>
        rw [List.dropLast_cons_cons, List.forall_mem_cons] at fixed
        exact List.pairwise_cons.mpr ⟨fun _ _ _ => fixed.1, ih fixed.2⟩
  · exact List.pairwise_of_forall_mem_list fun _ _ later inFull points =>
      (points (bare later inFull)).elim

theorem ColumnRange.leading_of_pairwise (ordered : ranges.Pairwise Precedes) :
    Leading ranges := by
  induction ranges with
  | nil => exact ⟨[], [], rfl, by simp, by simp, by simp⟩
  | cons first rest ih =>
    obtain ⟨ahead, ordered⟩ := List.pairwise_cons.mp ordered
    obtain ⟨bounded, full, rfl, points, fixed, bare⟩ := ih ordered
    cases bounded with
    | nil =>
      by_cases unbounded : first.points = []
      · exact ⟨[], first :: full, rfl, by simp, by simp, List.forall_mem_cons.mpr ⟨unbounded, bare⟩⟩
      · exact ⟨[first], full, rfl, by simpa using unbounded, by simp, bare⟩
    | cons second others =>
      have ofSecond : second.points ≠ [] := points second List.mem_cons_self
      have equal := ahead second (by simp) ofSecond
      refine ⟨first :: second :: others, full, rfl, List.forall_mem_cons.mpr ⟨?_, points⟩, ?_, bare⟩
      · obtain ⟨point, member, _⟩ := equal
        exact List.ne_nil_of_mem member
      · rw [List.dropLast_cons_cons]
        exact List.forall_mem_cons.mpr ⟨equal, fixed⟩

theorem ColumnRange.leading_iff_pairwise : Leading ranges ↔ ranges.Pairwise Precedes :=
  ⟨Leading.pairwise, leading_of_pairwise⟩

/-! ## The ranges of a scan, column by column -/

/-- The range of a column behind others: it has points only if all of these are fixed and the column
is not among them. -/
def rangeBehind (comparisons : List ColumnComparison) (before : List IndexColumn)
    (column : IndexColumn) : ColumnRange where
  column := column.path
  columnType := column.columnType
  points :=
    if (∀ earlier ∈ before, earlier.Fixed comparisons) ∧ column.path ∉ before.map (·.path) then
      pointsOn comparisons column.path
    else []

/-- The ranges of columns behind others. -/
def rangesBehind (comparisons : List ColumnComparison) (before : List IndexColumn) :
    List IndexColumn → List ColumnRange
  | [] => []
  | column :: rest =>
    rangeBehind comparisons before column :: rangesBehind comparisons (before ++ [column]) rest

theorem rangeBehind_points : (rangeBehind comparisons before column).points ≠ [] ↔
    (∀ earlier ∈ before, earlier.Fixed comparisons) ∧ column.path ∉ before.map (·.path) ∧
      column.Compared comparisons := by
  rw [← pointsOn_ne_nil, rangeBehind, ← and_assoc]
  dsimp only
  split
  · rename_i bounded
    exact (and_iff_right bounded).symm
  · rename_i unbounded
    exact iff_of_false (fun points => points rfl) fun bounded => unbounded bounded.1

theorem mem_rangesBehind_iff : range ∈ rangesBehind comparisons before columns ↔
    ∃ front column after, columns = front ++ column :: after ∧
      range = rangeBehind comparisons (before ++ front) column := by
  induction columns generalizing before with
  | nil => simp [rangesBehind]
  | cons head rest ih =>
    rw [rangesBehind, List.mem_cons, ih]
    constructor
    · rintro (rfl | ⟨front, column, after, rfl, rfl⟩)
      · exact ⟨[], head, rest, rfl, by rw [List.append_nil]⟩
      · exact ⟨head :: front, column, after, rfl, by simp⟩
    · rintro ⟨front, column, after, split, rfl⟩
      cases front with
      | nil =>
        cases split
        exact .inl (by rw [List.append_nil])
      | cons first front =>
        cases split
        exact .inr ⟨front, column, after, rfl, by simp⟩

theorem rangesBehind_columns (comparisons : List ColumnComparison)
    (before columns : List IndexColumn) :
    ((rangesBehind comparisons before columns).map fun range => (range.column, range.columnType)) =
      columns.map fun column => (column.path, column.columnType) := by
  induction columns generalizing before with
  | nil => rfl
  | cons column rest ih => rw [rangesBehind, List.map_cons, List.map_cons, ih]; rfl

/-- Behind a column that is not fixed no range has points. -/
theorem rangesBehind_of_not_fixed (member : column ∈ before) (loose : ¬column.Fixed comparisons) :
    rangesBehind comparisons before columns =
      columns.map fun column => ⟨column.path, column.columnType, []⟩ := by
  induction columns generalizing before with
  | nil => rfl
  | cons head rest ih =>
    have bare : (rangeBehind comparisons before head).points = [] :=
      if_neg fun bounded => loose (bounded.1 column member)
    rw [rangesBehind, List.map_cons, ih (List.mem_append_left _ member), ← bare]
    rfl

/-- If columns are bounded only behind columns without repetition, they are bounded in order. -/
private theorem rangesBehind_pairwise
    (distinct : ∀ front column after, columns = front ++ column :: after →
      (rangeBehind comparisons (before ++ front) column).points ≠ [] →
        ((before ++ front).map (·.path)).Nodup) :
    (rangesBehind comparisons before columns).Pairwise ColumnRange.Precedes := by
  induction columns generalizing before with
  | nil => exact .nil
  | cons head rest ih =>
    refine List.pairwise_cons.mpr ⟨fun later member points => ?_,
      ih fun front column after split => ?_⟩
    · obtain ⟨front, column, after, rfl, rfl⟩ := mem_rangesBehind_iff.mp member
      have fixed := (rangeBehind_points.mp points).1
      rw [List.append_assoc] at points fixed
      have fresh : head.path ∉ before.map (·.path) := by
        have distinct := distinct ([head] ++ front) column after rfl points
        rw [List.map_append, List.nodup_append] at distinct
        exact fun earlier => distinct.2.2 _ earlier head.path (by simp) rfl
      have bounded : (rangeBehind comparisons before head).points =
          pointsOn comparisons head.path :=
        if_pos ⟨fun earlier inside => fixed earlier (List.mem_append_left _ inside), fresh⟩
      rw [bounded]
      exact exists_equal_pointsOn.mpr (fixed head (by simp))
    · have shifted := distinct (head :: front) column after (congrArg (head :: ·) split)
      simpa using shifted

/-- If columns are bounded in order, they are bounded only behind columns without repetition. -/
private theorem nodup_of_rangesBehind_pairwise (distinct : (before.map (·.path)).Nodup)
    (ordered : (rangesBehind comparisons before columns).Pairwise ColumnRange.Precedes)
    (split : columns = front ++ column :: after)
    (points : (rangeBehind comparisons (before ++ front) column).points ≠ []) :
    ((before ++ front).map (·.path)).Nodup := by
  induction columns generalizing before front with
  | nil => simp at split
  | cons head rest ih =>
    obtain ⟨ahead, ordered⟩ := List.pairwise_cons.mp ordered
    cases front with
    | nil => rwa [List.append_nil]
    | cons first front =>
      cases split
      rw [List.append_cons] at points ⊢
      obtain ⟨point, member, _⟩ :=
        ahead _ (mem_rangesBehind_iff.mpr ⟨front, column, after, rfl, rfl⟩) points
      obtain ⟨_, fresh, _⟩ := rangeBehind_points.mp (List.ne_nil_of_mem member)
      refine ih ?_ ordered rfl points
      rw [List.map_append, List.nodup_append]
      refine ⟨distinct, by simp, fun path earlier other last => ?_⟩
      rw [List.mem_singleton.mp last]
      exact ne_of_mem_of_not_mem earlier fresh

theorem rangesBehind_leading_iff (comparisons : List ColumnComparison)
    (columns : List IndexColumn) : ColumnRange.Leading (rangesBehind comparisons [] columns) ↔
      ¬SkipsRepeat comparisons columns := by
  rw [ColumnRange.leading_iff_pairwise]
  constructor
  · rintro ordered ⟨front, column, after, split, repeated, bounded⟩
    have noneBefore : (([] : List IndexColumn).map (·.path)).Nodup := List.nodup_nil
    exact repeated (nodup_of_rangesBehind_pairwise noneBefore ordered split
      (rangeBehind_points.mpr bounded))
  · intro none
    refine rangesBehind_pairwise fun front column after split points => ?_
    by_contra repeated
    exact none ⟨front, column, after, split, repeated, rangeBehind_points.mp points⟩

/-! ## The two walks over the columns -/

theorem IndexColumn.bounds_isEmpty_iff :
    (comparisons.filter fun comparison => comparison.column == column.path).isEmpty = true ↔
      ¬column.Compared comparisons := by
  simp [Compared]

theorem IndexColumn.bounds_any_equal_iff :
    (comparisons.filter fun comparison => comparison.column == column.path).any
      (fun comparison => comparison.operator == .equal) = true ↔ column.Fixed comparisons := by
  simp [Fixed]

/-- The walk counts a column that is bounded, and goes on behind one that is fixed. -/
theorem coverageFrom_cons (few : position < maxIndexColumns) (column : IndexColumn)
    (rest : List IndexColumn) : coverageFrom comparisons position (column :: rest) =
      if column.Fixed comparisons then
        (coverageFrom comparisons (position + 1) rest).addColumn position
      else if column.Compared comparisons then Coverage.none.addColumn position
      else .none := by
  simp only [coverageFrom, Bool.or_eq_true, IndexColumn.bounds_isEmpty_iff, decide_eq_true_eq,
    Nat.not_le.mpr few, or_false, IndexColumn.bounds_any_equal_iff]
  by_cases compared : column.Compared comparisons
  · rw [if_neg (not_not.mpr compared), if_pos compared]
  · rw [if_pos compared, if_neg (mt IndexColumn.Fixed.compared compared), if_neg compared]

theorem coverageFrom_columns (few : position < maxIndexColumns) (column : IndexColumn)
    (rest : List IndexColumn) : (coverageFrom comparisons position (column :: rest)).columns =
      if column.Fixed comparisons then (coverageFrom comparisons (position + 1) rest).columns + 1
      else if column.Compared comparisons then 1 else 0 := by
  rw [coverageFrom_cons few]
  split
  · rfl
  · split <;> rfl

theorem splitBounds_eq (extent : Nat) (column : String) (conditions : List Condition) :
    splitBounds extent column conditions =
      (pointsOn (comparisonsAmong extent conditions) column,
        conditions.filter fun condition => !condition.compares extent column) := by
  induction conditions with
  | nil => rfl
  | cons condition rest ih =>
    rw [splitBounds, ih]
    cases found : condition.columnComparison? extent with
    | none => simp [comparisonsAmong, found, Condition.compares]
    | some comparison =>
      by_cases same : comparison.column = column
      · simp [comparisonsAmong, pointsOn, found, Condition.compares, same, ColumnComparison.point,
          Option.filter_some]
      · simp [comparisonsAmong, pointsOn, found, Condition.compares, same, Option.filter_some]

/-- The conditions that are no comparisons with any of the columns. -/
def unusedBy (extent : Nat) (columns : List IndexColumn) (conditions : List Condition) :
    List Condition :=
  conditions.filter fun condition =>
    !columns.any fun column => condition.compares extent column.path

theorem pointsOn_comparisonsAmong (extent : Nat) (conditions : List Condition) (column : String) :
    pointsOn (comparisonsAmong extent conditions) column = conditions.filterMap fun condition =>
      ((condition.columnComparison? extent).filter (·.column == column)).map (·.point) := by
  rw [pointsOn, comparisonsAmong, List.filter_filterMap, List.map_filterMap]

/-- Once the comparisons with some columns are gone, those with another column are all there. -/
theorem pointsOn_unusedBy (extent : Nat) (before : List IndexColumn) (conditions : List Condition)
    (column : String) :
    pointsOn (comparisonsAmong extent (unusedBy extent before conditions)) column =
      if column ∈ before.map (·.path) then []
      else pointsOn (comparisonsAmong extent conditions) column := by
  rw [pointsOn_comparisonsAmong, pointsOn_comparisonsAmong, unusedBy, List.filterMap_filter]
  have nothing : ∀ condition : Condition, ¬condition.compares extent column = true →
      (condition.columnComparison? extent).filter (·.column == column) = none := by
    intro condition elsewhere
    rw [Option.filter_eq_none_iff]
    intro comparison found same
    exact elsewhere (Condition.compares_iff.mpr ⟨comparison, found, beq_iff_eq.mp same⟩)
  split
  · rename_i repeated
    obtain ⟨earlier, member, rfl⟩ := List.mem_map.mp repeated
    refine List.filterMap_eq_nil_iff.mpr fun condition _ => ?_
    by_cases compares : condition.compares extent earlier.path = true
    · rw [if_neg]
      simpa using ⟨earlier, member, compares⟩
    · rw [nothing condition compares, Option.map_none, ite_self]
  · rename_i fresh
    refine List.filterMap_congr fun condition _ => ?_
    by_cases compares : condition.compares extent column = true
    · rw [if_pos]
      obtain ⟨comparison, found, rfl⟩ := Condition.compares_iff.mp compares
      rw [Bool.not_eq_true', List.any_eq_false]
      intro earlier member other
      obtain ⟨same, again, onEarlier⟩ := Condition.compares_iff.mp other
      cases found.symm.trans again
      exact fresh (onEarlier ▸ List.mem_map_of_mem member)
    · rw [nothing condition compares, Option.map_none, ite_self]

/-- The conditions that no range takes are all if no range has points. -/
theorem filter_takes_of_full (bare : ∀ range ∈ ranges, range.points = [])
    (conditions : List Condition) :
    (conditions.filter fun condition => !ranges.any (·.takes extent condition)) = conditions := by
  refine List.filter_eq_self.mpr fun condition _ => ?_
  rw [Bool.not_eq_true', List.any_eq_false]
  intro range member
  simp [ColumnRange.takes, ColumnRange.isFull, bare range member]

theorem unusedBy_append (extent : Nat) (before : List IndexColumn) (column : IndexColumn)
    (conditions : List Condition) : unusedBy extent (before ++ [column]) conditions =
      (unusedBy extent before conditions).filter fun condition =>
        !condition.compares extent column.path := by
  simp only [unusedBy, List.filter_filter, List.any_append, List.any_cons, List.any_nil,
    Bool.or_false, Bool.not_or, Bool.and_comm]

/-- The range of a column that stands behind fixed ones takes all comparisons with it that are
left. -/
private theorem takes_rangeBehind {conditions : List Condition}
    (fixed : ∀ earlier ∈ before, earlier.Fixed (comparisonsAmong extent conditions))
    (unused : condition ∈ unusedBy extent before conditions) :
    (rangeBehind (comparisonsAmong extent conditions) before column).takes extent condition =
      condition.compares extent column.path := by
  obtain ⟨stored, free⟩ := List.mem_filter.mp unused
  rw [ColumnRange.takes, Bool.eq_iff_iff, Bool.and_eq_true]
  refine and_iff_right_of_imp fun compares => ?_
  obtain ⟨comparison, found, same⟩ := Condition.compares_iff.mp compares
  have points : (rangeBehind (comparisonsAmong extent conditions) before column).points ≠ [] := by
    refine rangeBehind_points.mpr ⟨fixed, fun repeated => ?_, comparison,
      List.mem_filterMap.mpr ⟨condition, stored, found⟩, same⟩
    obtain ⟨earlier, member, again⟩ := List.mem_map.mp repeated
    have used : before.any (fun column => condition.compares extent column.path) = true :=
      List.any_eq_true.mpr ⟨earlier, member, again ▸ compares⟩
    rw [used] at free
    cases free
  simpa [ColumnRange.isFull] using points

/-- The conditions that are left when a column behind fixed ones has its range. -/
private theorem filter_takes_cons {conditions : List Condition}
    (fixed : ∀ earlier ∈ before, earlier.Fixed (comparisonsAmong extent conditions))
    (column : IndexColumn) (ranges : List ColumnRange) :
    ((unusedBy extent (before ++ [column]) conditions).filter fun condition =>
        !ranges.any (·.takes extent condition)) =
      (unusedBy extent before conditions).filter fun condition =>
        !(rangeBehind (comparisonsAmong extent conditions) before column :: ranges).any
          (·.takes extent condition) := by
  rw [unusedBy_append, List.filter_filter]
  refine List.filter_congr fun condition unused => ?_
  rw [List.any_cons, takes_rangeBehind fixed unused, Bool.not_or, Bool.and_comm]

/-- The range of a column behind fixed ones has the comparisons with it that are left. -/
private theorem rangeBehind_of_unused {conditions : List Condition}
    (fixed : ∀ earlier ∈ before, earlier.Fixed (comparisonsAmong extent conditions)) :
    rangeBehind (comparisonsAmong extent conditions) before column =
      ⟨column.path, column.columnType,
        pointsOn (comparisonsAmong extent (unusedBy extent before conditions)) column.path⟩ := by
  rw [pointsOn_unusedBy, rangeBehind]
  by_cases repeated : column.path ∈ before.map (·.path)
  · rw [if_pos repeated, if_neg fun bounded => bounded.2 repeated]
  · rw [if_neg repeated, if_pos ⟨fixed, repeated⟩]

/-- A column with which nothing is compared takes no condition and has no points. -/
private theorem untaken_of_not_compared {conditions : List Condition}
    (absent : ¬column.Compared (comparisonsAmong extent conditions)) :
    unusedBy extent (before ++ [column]) conditions = unusedBy extent before conditions ∧
      pointsOn (comparisonsAmong extent (unusedBy extent before conditions)) column.path = [] := by
  constructor
  · rw [unusedBy_append]
    refine List.filter_eq_self.mpr fun condition unused => ?_
    rw [Bool.not_eq_true', ← Bool.not_eq_true]
    intro compares
    obtain ⟨comparison, found, same⟩ := Condition.compares_iff.mp compares
    exact absent ⟨comparison,
      List.mem_filterMap.mpr ⟨condition, (List.mem_filter.mp unused).1, found⟩, same⟩
  · rw [pointsOn_unusedBy, not_not.mp (mt pointsOn_ne_nil.mp absent), ite_self]

/-- Both walks together give each column the range of a column behind those before it, and leave
the conditions that no range takes. -/
theorem columnRanges_coverageFrom (extent : Nat) (columns : List IndexColumn)
    (conditions : List Condition)
    (fixed : ∀ earlier ∈ before, earlier.Fixed (comparisonsAmong extent conditions))
    (few : before.length + columns.length ≤ maxIndexColumns) :
    columnRanges extent
        (coverageFrom (comparisonsAmong extent conditions) before.length columns).columns columns
        (unusedBy extent before conditions) =
      (rangesBehind (comparisonsAmong extent conditions) before columns,
        (unusedBy extent before conditions).filter fun condition =>
          !(rangesBehind (comparisonsAmong extent conditions) before columns).any
            (·.takes extent condition)) := by
  induction columns generalizing before with
  | nil => simp [columnRanges, rangesBehind]
  | cons column rest ih =>
    rw [List.length_cons] at few
    rw [coverageFrom_columns (by omega), rangesBehind, ← filter_takes_cons fixed,
      rangeBehind_of_unused fixed]
    by_cases ofColumn : column.Fixed (comparisonsAmong extent conditions)
    · have further : ∀ earlier ∈ before ++ [column],
          earlier.Fixed (comparisonsAmong extent conditions) :=
        List.forall_mem_append.mpr ⟨fixed, List.forall_mem_singleton.mpr ofColumn⟩
      have others := ih further (by simp only [List.length_append, List.length_singleton]; omega)
      rw [List.length_append, List.length_singleton] at others
      rw [if_pos ofColumn, columnRanges, splitBounds_eq, ← unusedBy_append]
      dsimp only
      rw [others]
    · have loose : column ∈ before ++ [column] := by simp
      rw [if_neg ofColumn, rangesBehind_of_not_fixed loose ofColumn, filter_takes_of_full (by simp)]
      by_cases compared : column.Compared (comparisonsAmong extent conditions)
      · rw [if_pos compared, columnRanges, splitBounds_eq, ← unusedBy_append]
        dsimp only
        rw [columnRanges_unbounded]
      · obtain ⟨kept, bare⟩ := untaken_of_not_compared compared
        rw [if_neg compared, columnRanges, columnRanges_unbounded, kept, bare]

/-! ## Scans of declared indexes -/

theorem Catalog.columns_of_declareIndex {catalog : Catalog}
    (ran : catalog.declareIndex name typeName columns = .ok next) :
    columns.length ≤ maxIndexColumns := by
  unfold declareIndex at ran
  split at ran
  · cases ran
  split at ran
  · cases ran
  split at ran
  · cases ran
  split at ran
  · cases ran
  · rename_i few
    exact Nat.not_lt.mp few

/-- No declared index has more columns than an index can have. -/
theorem Catalog.Declared.columns_length {catalog : Catalog} {index : Index}
    (declared : Declared catalog) (listed : index ∈ catalog.indexes) :
    index.columns.length ≤ maxIndexColumns := by
  induction declared with
  | empty generation => cases listed
  | type before ran ih =>
    rw [(declareType_ok ran).2] at listed
    rcases List.mem_append.mp listed with old | new
    · exact ih old
    · rw [List.mem_singleton.mp new]
      simp [defaultIndex, maxIndexColumns]
  | index before ran ih =>
    rw [declareIndex_ok ran] at listed
    rcases List.mem_append.mp listed with old | new
    · exact ih old
    · rw [List.mem_singleton.mp new]
      exact columns_of_declareIndex ran

namespace Visit

variable {visit : Visit} {index : Index} {direction : Direction} {conditions : List Condition}

/-- What a scan of an index is made of. -/
theorem indexScan_eq (visit : Visit) (few : index.columns.length ≤ maxIndexColumns)
    (direction : Direction) (conditions : List Condition) :
    visit.indexScan index direction conditions = .indexScan visit.extent index direction
      (rangesBehind (comparisonsAmong visit.extent conditions) [] index.columns)
      (visit.guardedFilter index (conditions.filter fun condition =>
        !(rangesBehind (comparisonsAmong visit.extent conditions) [] index.columns).any
          (·.takes visit.extent condition))) visit.innermost := by
  have noneBefore : ∀ earlier ∈ ([] : List IndexColumn),
      earlier.Fixed (comparisonsAmong visit.extent conditions) := by simp
  have walks := columnRanges_coverageFrom visit.extent index.columns conditions noneBefore
    (by simpa using few)
  have all : unusedBy visit.extent [] conditions = conditions := by simp [unusedBy]
  rw [all] at walks
  rw [indexScan, Index.coverage]
  exact congrArg (fun (walk : List ColumnRange × List Condition) => Access.indexScan visit.extent
    index direction walk.1 (visit.guardedFilter index walk.2) visit.innermost) walks

/-- A path that is a scan of an index is the scan by the conditions that the path is given. -/
theorem indexScan_of_access
    (ran : visit.access generator? = .ok (.indexScan extent index direction ranges filter last)) :
    .indexScan extent index direction ranges filter last =
      visit.indexScan index direction visit.pathConditions := by
  rw [access] at ran
  split at ran
  · rename_i hinted
    have same := Except.ok.inj ran
    cases same
    simp [pathConditions, hinted, indexScan]
  · rename_i noHint ordered
    cases ran
    simp [pathConditions, ordered, indexScan]
  · cases ran
  · cases ran
  · rename_i noHint noOrder _ _ _
    cases ran
    simp [pathConditions, noHint, noOrder, indexScan]
  · rename_i noHint noOrder _ _ _ _
    rcases visit.extentScan_cases _ generator? with ⟨code, same⟩ | same
    · rw [same] at ran
      cases ran
    · rw [same] at ran
      cases ran
      simp [pathConditions, noHint, noOrder, indexScan]
  · cases ran

/-- The bounds of every scan of an index of a catalog are those of its conditions, and they are the
leading ones exactly if the comparisons skip no repeated column, as where no column is repeated. -/
theorem scan_bounds_leading_iff (generation : Nat) (history : List Catalog.Declaration)
    (listed : index ∈ ((Catalog.empty generation).declareAll history).indexes)
    (ran : visit.access generator? =
      .ok (.indexScan extent index direction ranges filter last)) :
    extent = visit.extent ∧ ScanBounds visit index visit.pathConditions ranges filter ∧
      (ColumnRange.Leading ranges ↔
        ¬SkipsRepeat (comparisonsAmong visit.extent visit.pathConditions) index.columns) ∧
      ((index.columns.map (·.path)).Nodup → ColumnRange.Leading ranges) := by
  have few := ((Catalog.Declared.empty generation).declareAll history).columns_length listed
  have scan := indexScan_of_access ran
  rw [visit.indexScan_eq few] at scan
  obtain ⟨rfl, _, _, rfl, rfl, _⟩ := Access.indexScan.inj scan
  have leading := rangesBehind_leading_iff
    (comparisonsAmong visit.extent visit.pathConditions) index.columns
  refine ⟨rfl, ⟨rangesBehind_columns _ _ _, fun range member points => ?_, rfl⟩, leading,
    fun distinct => leading.mpr (not_skipsRepeat_of_nodup distinct)⟩
  obtain ⟨front, column, after, _, rfl⟩ := mem_rangesBehind_iff.mp member
  obtain ⟨fixed, fresh, _⟩ := rangeBehind_points.mp points
  exact if_pos ⟨fixed, fresh⟩

/-- Two indexes of persons, each with the department twice. -/
def deptDeptAge : Index :=
  ⟨"DeptDeptAge", "Person", [⟨"dept", .ascending, .integer⟩, ⟨"dept", .descending, .integer⟩,
    ⟨"age", .ascending, .integer⟩]⟩

def deptAgeDept : Index :=
  ⟨"DeptAgeDept", "Person", [⟨"dept", .ascending, .integer⟩, ⟨"age", .ascending, .integer⟩,
    ⟨"dept", .descending, .integer⟩]⟩

def deptHistory : List Catalog.Declaration :=
  [.type "Person" none, .type "Employee" (some "Person"),
    .index deptDeptAge.name "Person" deptDeptAge.columns,
    .index deptAgeDept.name "Person" deptAgeDept.columns]

/-- Employees of one department and between two ages. -/
def employeesByDept : Visit :=
  ((unplanned 0 "Employee").addConditions [.compare .greater (.parameter 1) (.path 0 ["age"]),
    .compare .equal (.path 0 ["dept"]) (.parameter 0),
    .compare .equal (.path 0 ["name"]) (.parameter 3),
    .compare .greater (.path 0 ["age"]) (.parameter 2)]).hint deptAgeDept

def employeeRanges : List ColumnRange :=
  [⟨"dept", .integer, [⟨.equal, .parameter 0⟩]⟩,
    ⟨"age", .integer, [⟨.less, .parameter 1⟩, ⟨.greater, .parameter 2⟩]⟩, ⟨"dept", .integer, []⟩]

def employeeFilter : Condition :=
  .and (.compare .equal (.path 0 ["name"]) (.parameter 3)) (.isType (.object 0) (.named "Employee"))

/-- No column is bounded behind the second department, and the ranges with points come first. -/
theorem scan_bounds_leading_employees :
    deptAgeDept ∈ ((Catalog.empty 0).declareAll deptHistory).indexes ∧
      employeesByDept.access none =
        .ok (.indexScan 0 deptAgeDept .ascending employeeRanges employeeFilter false) ∧
      ScanBounds employeesByDept deptAgeDept employeesByDept.pathConditions employeeRanges
        employeeFilter ∧
      ColumnRange.Leading employeeRanges ∧
      ¬SkipsRepeat (comparisonsAmong 0 employeesByDept.pathConditions) deptAgeDept.columns := by
  have listed : deptAgeDept ∈ ((Catalog.empty 0).declareAll deptHistory).indexes := by decide
  have ran : employeesByDept.access none =
      .ok (.indexScan 0 deptAgeDept .ascending employeeRanges employeeFilter false) := rfl
  obtain ⟨_, bounds, leading, _⟩ := scan_bounds_leading_iff 0 deptHistory listed ran
  have ordered : ColumnRange.Leading employeeRanges := ColumnRange.leading_of_pairwise (by decide)
  exact ⟨listed, ran, bounds, ordered, leading.mp ordered⟩

/-- For the persons of one department and age, the index that has the department twice in front is
chosen; its second column is not bounded, and the one behind it is. -/
theorem leading_lost_by_repeated_dept :
    deptDeptAge ∈ ((Catalog.empty 0).declareAll deptHistory).indexes ∧
      ∃ visit ranges,
        ((unplanned 0 "Person").addConditions
          [.compare .equal (.path 0 ["dept"]) (.literal (.int 1)),
            .compare .equal (.path 0 ["age"]) (.literal (.int 2))]).evaluate
              ((Catalog.empty 0).declareAll deptHistory) = .ok visit ∧
        visit.access none =
          .ok (.indexScan 0 deptDeptAge .ascending ranges (.truth .isTrue) false) ∧
        ranges.map (·.points) =
          [[⟨.equal, .literal (.int 1)⟩], [], [⟨.equal, .literal (.int 2)⟩]] ∧
        ¬ColumnRange.Leading ranges := by
  refine ⟨by decide, _, _, rfl, rfl, rfl, ?_⟩
  rw [ColumnRange.leading_iff_pairwise]
  decide

end Visit

end ExtentPlanner
