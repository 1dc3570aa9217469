import ExtentPlanner.Catalog.Hierarchy
import ExtentPlanner.Condition.Lookup

/-!
Type assertions about a visited extent. An assertion of the declared class or of one of its
ancestors always holds and is dropped; so is one that another assertion implies, because its class
is a subtype or because it was asserted before. An assertion of a class on another branch of the
hierarchy never holds.
-/
namespace ExtentPlanner

/-- The declared class of an extent, with the hierarchy it is declared in. -/
structure DeclaredExtent where
  hierarchy : Hierarchy
  extent : Nat
  typeName : String

namespace DeclaredExtent

/-- Whether every object of the extent is of the class. -/
def implies (declared : DeclaredExtent) (target : String) : Bool :=
  declared.hierarchy.isSubtype declared.typeName target

/-- Whether the class is a proper part of the declared one. -/
def isNarrowedBy (declared : DeclaredExtent) (target : String) : Bool :=
  !declared.implies target && declared.hierarchy.isSubtype target declared.typeName

/-- Whether the condition asserts a class that no object of the extent is of. -/
def excludes (declared : DeclaredExtent) (condition : Condition) : Bool :=
  match condition.assertedType? declared.extent with
  | some target => !declared.implies target && !declared.isNarrowedBy target
  | none => false

/-- The classes that the conditions narrow the extent to, in order. -/
def narrowings (declared : DeclaredExtent) (conditions : List Condition) : List String :=
  (conditions.filterMap (·.assertedType? declared.extent)).filter declared.isNarrowedBy

/-- Whether a narrowing to `target` follows from the others: from the same one `earlier`, or from
a narrower one anywhere. -/
def isRedundant (declared : DeclaredExtent) (narrowings earlier : List String) (target : String) :
    Bool :=
  earlier.contains target ||
    narrowings.any fun other => other != target && declared.hierarchy.isSubtype other target

/-- Drops the assertions that follow from the declared class or from the `narrowings` of the whole
list, of which the `earlier` ones have been passed. -/
def dropImpliedFrom (declared : DeclaredExtent) (narrowings : List String) :
    (earlier : List String) → List Condition → List Condition
  | _, [] => []
  | earlier, condition :: rest =>
    match condition.assertedType? declared.extent with
    | none => condition :: declared.dropImpliedFrom narrowings earlier rest
    | some target =>
      if declared.implies target then declared.dropImpliedFrom narrowings earlier rest
      else if declared.isNarrowedBy target then
        let later := declared.dropImpliedFrom narrowings (target :: earlier) rest
        if declared.isRedundant narrowings earlier target then later else condition :: later
      else condition :: declared.dropImpliedFrom narrowings earlier rest

/-- The conditions without the assertions that follow from the rest. -/
def dropImplied (declared : DeclaredExtent) (conditions : List Condition) : List Condition :=
  declared.dropImpliedFrom (declared.narrowings conditions) [] conditions

end DeclaredExtent

end ExtentPlanner
