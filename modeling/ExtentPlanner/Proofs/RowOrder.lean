import ExtentPlanner.SortSpec
import Mathlib.Order.Lattice

/-! When rows are in the order that a sort specification asks for. Values are compared by any linear
order, a specification by its most significant item on which two rows differ. An order on the
columns of one extent says the same of rows as of the objects that the rows have at that extent, and
a backward scan of an index delivers the reversed order. -/
namespace ExtentPlanner

/-- An object, by the values of its members. -/
abbrev Object (Value : Type) : Type := String → Value

/-- A row of joined objects, by extent number. -/
abbrev Row (Value : Type) : Type := Nat → Object Value

/-- One value comes strictly before another in a direction. -/
def Direction.Before {Value : Type} [LinearOrder Value] (direction : Direction)
    (first second : Value) : Prop :=
  match direction with
  | .ascending => first < second
  | .descending => second < first

/-- Two items stand in the order of the parts, most significant first; items that agree on all parts
may stand either way. -/
def InOrder {Item Value : Type} [LinearOrder Value] :
    List ((Item → Value) × Direction) → Item → Item → Prop
  | [], _, _ => True
  | (part, direction) :: rest, first, second =>
    direction.Before (part first) (part second) ∨
      part first = part second ∧ InOrder rest first second

variable {Item Value : Type} [LinearOrder Value]

theorem Direction.before_reverse (direction : Direction) (first second : Value) :
    direction.reverse.Before second first ↔ direction.Before first second := by
  cases direction <;> rfl

theorem inOrder_of_agree {parts : List ((Item → Value) × Direction)} {first second : Item}
    (agree : ∀ part ∈ parts, part.1 first = part.1 second) : InOrder parts first second := by
  induction parts with
  | nil => trivial
  | cons part rest ih =>
    exact .inr ⟨agree part List.mem_cons_self,
      ih fun other member => agree other (List.mem_cons_of_mem _ member)⟩

/-- Where the leading parts agree, the order is that of the remaining ones. -/
theorem inOrder_append {leading rest : List ((Item → Value) × Direction)} {first second : Item}
    (agree : ∀ part ∈ leading, part.1 first = part.1 second) :
    InOrder (leading ++ rest) first second ↔ InOrder rest first second := by
  induction leading with
  | nil => rfl
  | cons part leading ih =>
    obtain ⟨value, direction⟩ := part
    have same : value first = value second := agree _ List.mem_cons_self
    have never : ¬ direction.Before (value second) (value second) := by
      cases direction <;> exact lt_irrefl _
    have ofRest : ∀ other ∈ leading, other.1 first = other.1 second := fun other member =>
      agree other (List.mem_cons_of_mem _ member)
    rw [List.cons_append, InOrder, ih ofRest]
    simp [same, never]

/-! ## Keys of indexes -/

namespace SortKey

/-- A sort key as parts of an object. -/
def parts (Value : Type) (key : SortKey) : List ((Object Value → Value) × Direction) :=
  key.map fun (column, direction) => ((· column), direction)

theorem inOrder_reversed (key : SortKey) (first second : Object Value) :
    InOrder (key.reversed.parts Value) second first ↔ InOrder (key.parts Value) first second := by
  induction key with
  | nil => rfl
  | cons entry rest ih =>
    obtain ⟨column, direction⟩ := entry
    have below : InOrder (SortKey.parts Value (SortKey.reversed rest)) second first ↔
        InOrder (SortKey.parts Value rest) first second := ih
    simp only [reversed, parts, List.map_cons, List.map_map] at below ⊢
    rw [InOrder, InOrder, Direction.before_reverse, eq_comm]
    exact or_congr Iff.rfl (and_congr Iff.rfl below)

end SortKey

/-! ## Sort specifications -/

/-- The value of an operand in a row. A plain column is read from the object at its extent; of other
operands nothing is assumed. -/
def Operand.valueIn (other : Operand → Row Value → Value) : Operand → Row Value → Value
  | .path extent [member], row => row extent member
  | operand, row => other operand row

namespace SortSpec

/-- The items of a specification as parts of a row. -/
def parts (other : Operand → Row Value → Value) (items : List SortItem) :
    List ((Row Value → Value) × Direction) :=
  items.map fun item => (item.operand.valueIn other, item.direction)

end SortSpec

theorem SortItem.columnExtent?_eq_some {item : SortItem} :
    item.columnExtent? = some extent ↔ ∃ member, item.operand = .path extent [member] := by
  obtain ⟨operand, direction⟩ := item
  constructor
  · intro found
    obtain ⟨reads, column⟩ := Option.filter_eq_some_iff.mp found
    obtain ⟨member, column⟩ := Option.isSome_iff_exists.mp column
    exact ⟨member, Operand.column?_eq_some.mp column⟩
  · rintro ⟨member, rfl⟩
    simp [columnExtent?, Operand.extent?, Operand.column?]

namespace SortSpec

variable {items : List SortItem}

/-- An order on the columns of one extent compares the objects at that extent. -/
theorem inOrder_of_column (other : Operand → Row Value → Value)
    (each : ∀ item ∈ items, item.columnExtent? = some extent) (first second : Row Value) :
    InOrder (parts other items) first second ↔
      InOrder ((SortSpec.mk items).sortKey extent |>.parts Value)
        (first extent) (second extent) := by
  induction items with
  | nil => rfl
  | cons item rest ih =>
    obtain ⟨member, column⟩ := SortItem.columnExtent?_eq_some.mp (each item List.mem_cons_self)
    have below := ih fun item inside => each item (List.mem_cons_of_mem _ inside)
    have key : item.keyPart? extent = some (member, item.direction) := by
      simp [SortItem.keyPart?, column, Operand.column?]
    simp only [parts, List.map_cons, sortKey, List.filterMap_cons, key, SortKey.parts] at below ⊢
    rw [InOrder, InOrder, column]
    exact or_congr Iff.rfl (and_congr Iff.rfl below)

/-! ## The required order of visits -/

private theorem visitOrderFrom_extends {visited : List Nat}
    (ran : visitOrderFrom visited items = some result) : visited <+: result := by
  induction items generalizing visited with
  | nil =>
    cases ran
    exact List.prefix_refl _
  | cons item rest ih =>
    rw [visitOrderFrom] at ran
    split at ran
    · cases ran
    · split at ran
      · exact ih ran
      · split at ran
        · cases ran
        · exact (List.prefix_append _ _).trans (ih ran)

/-- Every item is a plain column of one of the extents listed. -/
theorem columns_of_visitOrderFrom {visited : List Nat}
    (ran : visitOrderFrom visited items = some result) :
    ∀ item ∈ items, ∃ extent ∈ result, item.columnExtent? = some extent := by
  induction items generalizing visited with
  | nil => simp
  | cons item rest ih =>
    rw [visitOrderFrom] at ran
    split at ran
    · cases ran
    · rename_i extent column
      split at ran
      · rename_i last
        have listed := (visitOrderFrom_extends ran).subset (List.mem_of_getLast? last)
        exact List.forall_mem_cons.mpr ⟨⟨extent, listed, column⟩, ih ran⟩
      · split at ran
        · cases ran
        · have listed := (visitOrderFrom_extends ran).subset
            (List.mem_append_right _ (List.mem_singleton_self extent))
          exact List.forall_mem_cons.mpr ⟨⟨extent, listed, column⟩, ih ran⟩

/-- From an extent on, the items stay with that extent or go on to one that is required next. -/
private theorem visitOrderFrom_cases {before : List Nat}
    (ran : visitOrderFrom (before ++ [extent]) items = some result) :
    (result = before ++ [extent] ∧ ∀ item ∈ items, item.columnExtent? = some extent) ∨
    ∃ leading item rest next, items = leading ++ item :: rest ∧
      (∀ item ∈ leading, item.columnExtent? = some extent) ∧ item.columnExtent? = some next ∧
      before ++ [extent, next] <+: result := by
  induction items with
  | nil =>
    cases ran
    exact .inl ⟨rfl, by simp⟩
  | cons item rest ih =>
    rw [visitOrderFrom] at ran
    split at ran
    · cases ran
    · rename_i next column
      split at ran
      · rename_i same
        have here : item.columnExtent? = some extent := by
          rw [column, ← same, List.getLast?_concat]
        rcases ih ran with
          ⟨whole, each⟩ | ⟨leading, other, later, following, split, each, moves, leads⟩
        · exact .inl ⟨whole, List.forall_mem_cons.mpr ⟨here, each⟩⟩
        · exact .inr ⟨item :: leading, other, later, following, by rw [split]; rfl,
            List.forall_mem_cons.mpr ⟨here, each⟩, moves, leads⟩
      · split at ran
        · cases ran
        · have leads := visitOrderFrom_extends ran
          rw [List.append_assoc] at leads
          exact .inr ⟨[], item, rest, next, rfl, by simp, column, leads⟩

/-- A specification that requires one extent first either stays with it or requires the extent next
whose column is the first to follow. -/
theorem requiredVisitOrder?_cons {spec : SortSpec}
    (order : spec.requiredVisitOrder? = some (extent :: required)) :
    (required = [] ∧ ∀ item ∈ spec.items, item.columnExtent? = some extent) ∨
    ∃ leading item rest next later, spec.items = leading ++ item :: rest ∧
      (∀ item ∈ leading, item.columnExtent? = some extent) ∧ item.columnExtent? = some next ∧
      required = next :: later := by
  rw [requiredVisitOrder?] at order
  cases items : spec.items with
  | nil =>
    rw [items] at order
    cases order
  | cons item rest =>
    rw [items, visitOrderFrom] at order
    split at order
    · cases order
    · rename_i first column
      simp only [List.getLast?_nil, reduceCtorEq, if_false, List.contains_nil, Bool.false_eq_true,
        List.nil_append] at order
      have starts := visitOrderFrom_extends order
      obtain ⟨_, same⟩ := starts
      cases same
      have order : visitOrderFrom ([] ++ [extent]) rest = some _ := order
      rcases visitOrderFrom_cases order with
        ⟨whole, each⟩ | ⟨leading, other, later, next, split, each, moves, leads⟩
      · exact .inl ⟨by simpa using whole, List.forall_mem_cons.mpr ⟨column, each⟩⟩
      · obtain ⟨more, same⟩ := leads
        refine .inr ⟨item :: leading, other, later, next, more, by rw [split]; rfl,
          List.forall_mem_cons.mpr ⟨column, each⟩, moves, ?_⟩
        simpa using same.symm

end SortSpec

end ExtentPlanner
