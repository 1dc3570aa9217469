import ExtentPlanner.Catalog.Hierarchy
import ExtentPlanner.Catalog.Index

/-!
The catalog of one schema generation: its classes and the indexes declared on them, in the order
of declaration. Every search is a view of that one list.

Registering a class also declares its default index, under a name made from the class's. Declaring
an index is refused if its name is taken; a default index takes its name even then, and a search
by name finds the latest index of that name.
-/
namespace ExtentPlanner

/-- The most columns an index can have. -/
def maxIndexColumns : Nat := 10

/-- The classes and indexes of one schema generation. -/
structure Catalog where
  generation : Nat
  hierarchy : Hierarchy
  /-- In the order of declaration. -/
  indexes : List Index
  deriving DecidableEq

namespace Catalog

def empty (generation : Nat) : Catalog := ⟨generation, .empty, []⟩

instance : Inhabited Catalog := ⟨empty 0⟩

/-! ## Declarations -/

/-- The index over object numbers that every class has from its registration. -/
def defaultIndex (typeName : String) : Index :=
  ⟨typeName ++ ".auto", typeName, [⟨"ObjectNo", .ascending, .unsigned⟩]⟩

/-- Registers a class and its default index. -/
def declareType (catalog : Catalog) (name : String) (parent? : Option String) : Planned Catalog :=
  (catalog.hierarchy.register name parent?).map fun hierarchy =>
    { catalog with hierarchy, indexes := catalog.indexes ++ [defaultIndex name] }

def hasIndex (catalog : Catalog) (name : String) : Bool :=
  catalog.indexes.any fun index => index.name == name

/-- Declares an index on a registered class. -/
def declareIndex (catalog : Catalog) (name typeName : String) (columns : List IndexColumn) :
    Planned Catalog :=
  if !catalog.hierarchy.contains typeName then .error (.typeNotFound typeName)
  else if catalog.hasIndex name then .error (.invalidDefinition name .duplicateIndexName)
  else if columns.isEmpty then .error (.invalidDefinition name .noColumns)
  else if maxIndexColumns < columns.length then .error (.invalidDefinition name .tooManyColumns)
  else .ok { catalog with indexes := catalog.indexes ++ [⟨name, typeName, columns⟩] }

/-! ## Searches -/

/-- The number of index names. -/
def size (catalog : Catalog) : Nat := (catalog.indexes.map (·.name)).eraseDups.length

def isEmpty (catalog : Catalog) : Bool := catalog.indexes.isEmpty

/-- The latest index of that name. -/
def find? (catalog : Catalog) (name : String) : Option Index :=
  (catalog.indexes.filter fun index => index.name == name).getLast?

/-- The indexes declared on the class itself. -/
def indexesOn (catalog : Catalog) (typeName : String) : List Index :=
  catalog.indexes.filter fun index => index.typeName == typeName

/-- The indexes that can scan the class: its own first, then those of its ancestors. -/
def indexesFor (catalog : Catalog) (typeName : String) : List Index :=
  (catalog.hierarchy.ancestry typeName).flatMap catalog.indexesOn

/-- The index for scanning the whole extent of the class. -/
def scanIndex? (catalog : Catalog) (typeName : String) : Option Index :=
  (catalog.hierarchy.ancestry typeName).findSome? fun ancestor => (catalog.indexesOn ancestor).head?

/-- Whether the index can scan objects of the class. -/
def canScan (catalog : Catalog) (index : Index) (typeName : String) : Bool :=
  catalog.hierarchy.isSubtype typeName index.typeName

/-- The first index of the class itself whose sort key is `key`. -/
def indexWithKey? (catalog : Catalog) (typeName : String) (key : SortKey) : Option Index :=
  (catalog.indexesOn typeName).find? fun index => index.sortKey == key

/-- How the class's own indexes deliver rows in the order of `key`, a forward scan preferred. -/
def ownOrderIndex? (catalog : Catalog) (key : SortKey) (typeName : String) : Option IndexUse :=
  ((catalog.indexWithKey? typeName key).map (IndexUse.mk · .ascending)).or
    ((catalog.indexWithKey? typeName key.reversed).map (IndexUse.mk · .descending))

/-- The index that delivers objects of the class in the order of `key`. The nearest class of the
hierarchy wins; an empty key asks for no order and has none. -/
def orderIndex? (catalog : Catalog) (typeName : String) (key : SortKey) : Option IndexUse :=
  if key.isEmpty then none
  else (catalog.hierarchy.ancestry typeName).findSome? (catalog.ownOrderIndex? key)

end Catalog

end ExtentPlanner
