/-!
Indexes and the order they deliver rows in. An index is a list of columns, each with a direction;
the pairs of column and direction are its sort key, and a backward scan delivers the reversed key.
-/
namespace ExtentPlanner

/-- Direction of an index column, of a sort item, or of a whole index scan. -/
inductive Direction where
  | ascending
  | descending
  deriving DecidableEq

namespace Direction

def reverse : Direction → Direction
  | ascending => descending
  | descending => ascending

def written : Direction → String
  | ascending => "ASC"
  | descending => "DESC"

theorem reverse_reverse (direction : Direction) : direction.reverse.reverse = direction := by
  cases direction <;> rfl

end Direction

/-- Storage type of an index column. -/
inductive ColumnType where
  | binary
  | boolean
  | dateTime
  | decimal
  | double
  | integer
  | unsigned
  | string
  | object
  deriving DecidableEq

namespace ColumnType

def all : List ColumnType :=
  [binary, boolean, dateTime, decimal, double, integer, unsigned, string, object]

def written : ColumnType → String
  | binary => "Binary"
  | boolean => "Boolean"
  | dateTime => "DateTime"
  | decimal => "Decimal"
  | double => "Double"
  | integer => "Integer"
  | unsigned => "UInteger"
  | string => "String"
  | object => "Object"

/-- The column type with this written form. -/
def ofText? (text : String) : Option ColumnType :=
  all.find? fun columnType => columnType.written == text

end ColumnType

/-- Column names and directions, most significant first: an order of rows. -/
abbrev SortKey : Type := List (String × Direction)

namespace SortKey

/-- The order that a backward scan delivers. -/
def reversed (key : SortKey) : SortKey :=
  key.map fun (column, direction) => (column, direction.reverse)

end SortKey

/-- A column of an index: the path it holds, its direction and its storage type. -/
structure IndexColumn where
  path : String
  direction : Direction
  columnType : ColumnType
  deriving DecidableEq

/-- An index, declared on a class and usable for all its subtypes. -/
structure Index where
  name : String
  typeName : String
  columns : List IndexColumn
  deriving DecidableEq

namespace Index

def arity (index : Index) : Nat := index.columns.length

/-- The column at a position. -/
def path? (index : Index) (position : Nat) : Option String :=
  index.columns[position]?.map (·.path)

def sortKey (index : Index) : SortKey :=
  index.columns.map fun column => (column.path, column.direction)

end Index

/-- An index and the direction it is scanned in. -/
structure IndexUse where
  index : Index
  direction : Direction
  deriving DecidableEq

namespace IndexUse

def written (use : IndexUse) : String := use.index.name ++ " " ++ use.direction.written

end IndexUse

end ExtentPlanner
