import ExtentPlanner.Error

/-!
The declared class of each extent of a query. Extents are numbered from zero in the order in which
they are bound.
-/
namespace ExtentPlanner

/-- Classes by extent number. -/
structure RowTypes where
  typeNames : List String
  deriving DecidableEq

namespace RowTypes

def empty : RowTypes := ⟨[]⟩

def size (types : RowTypes) : Nat := types.typeNames.length

def isEmpty (types : RowTypes) : Bool := types.typeNames.isEmpty

/-- Binds the next extent to a class and tells its number. -/
def bind (types : RowTypes) (typeName : String) : RowTypes × Nat :=
  (⟨types.typeNames ++ [typeName]⟩, types.size)

/-- The class of an extent that has been bound. -/
def typeName (types : RowTypes) (extent : Nat) : Planned String :=
  match types.typeNames[extent]? with
  | some name => .ok name
  | none => .error (.internal (.noTypeBinding extent))

end RowTypes

end ExtentPlanner
