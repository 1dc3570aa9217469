import ExtentPlanner.Error

/-!
The classes of a database, each with at most one parent. A class can only be registered after its
parent, so the list of definitions, newest first, has every parent behind its children, and the
ancestors of a class are found in one walk down the list.
-/
namespace ExtentPlanner

/-- A registered class. -/
structure TypeDefinition where
  name : String
  parent? : Option String
  deriving DecidableEq

/-- The registered classes, newest first. -/
structure Hierarchy where
  definitions : List TypeDefinition
  deriving DecidableEq

namespace Hierarchy

def empty : Hierarchy := ⟨[]⟩

def find? (hierarchy : Hierarchy) (name : String) : Option TypeDefinition :=
  hierarchy.definitions.find? fun definition => definition.name == name

def contains (hierarchy : Hierarchy) (name : String) : Bool := (hierarchy.find? name).isSome

def size (hierarchy : Hierarchy) : Nat := hierarchy.definitions.length

def isEmpty (hierarchy : Hierarchy) : Bool := hierarchy.definitions.isEmpty

/-- Registers a class. An unknown parent is reported before a repeated name. -/
def register (hierarchy : Hierarchy) (name : String) (parent? : Option String) :
    Planned Hierarchy :=
  match parent?.filter fun parent => !hierarchy.contains parent with
  | some parent => .error (.typeNotFound parent)
  | none =>
    if hierarchy.contains name then .error (.invalidDefinition name .typeRegisteredTwice)
    else .ok ⟨⟨name, parent?⟩ :: hierarchy.definitions⟩

/-- Follows parents down a list that has them behind their children. -/
def ancestryIn : List TypeDefinition → String → List String
  | [], _ => []
  | definition :: older, name =>
    if definition.name = name then
      name :: (match definition.parent? with
        | some parent => ancestryIn older parent
        | none => [])
    else ancestryIn older name

/-- A class followed by its ancestors, nearest first; nothing if the name is not registered. -/
def ancestry (hierarchy : Hierarchy) (name : String) : List String :=
  ancestryIn hierarchy.definitions name

/-- Whether every object of `name` is an object of `ancestor`. Names that are not registered are
subtypes of nothing. -/
def isSubtype (hierarchy : Hierarchy) (name ancestor : String) : Bool :=
  (hierarchy.ancestry name).contains ancestor

end Hierarchy

end ExtentPlanner
