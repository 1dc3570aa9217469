import ExtentPlanner.Listing

/-!
What can go wrong while a query is planned. Every failure is a cause with its data; the wording of
all of them is `PlanError.message`, so no other module writes error text.

Five families are kept apart because callers react to them differently: faults inside the planner,
unusable hints, rejected index and type definitions, unknown types, and unusable settings.
-/
namespace ExtentPlanner

/-- Faults that a query bound against a complete catalog should not meet. -/
inductive InternalFault where
  /-- An extent number does not fit a 64-member extent set. -/
  | extentOutOfRange (extent : Nat)
  /-- Subsets were asked for an extent that the visitation order does not have. -/
  | missingFromOrder (extent : Nat) (order : List Nat)
  /-- Subsets were asked for an extent that stands too late in the order to list them. -/
  | tooDeepToList (extent position bound : Nat)
  /-- A pattern comparison has no mirrored form. -/
  | irreversibleOperator (operator : String)
  /-- No row type is bound to the extent. -/
  | noTypeBinding (extent : Nat)
  /-- An explicit sort stands where only extents and joins may be copied. -/
  | sortNotCopied
  /-- An aggregation stands where only extents and joins may be copied. -/
  | aggregationNotCopied
  /-- The tree has no visit of the extent. -/
  | noExtentNode (extent : Nat)
  /-- A null test on an outer join's inner side found no join to be evaluated at. -/
  | noJoinForPostFilter (condition : String)
  /-- Some stored conditions read extents that the plan never visits. -/
  | conditionsOutsidePlan (missing total : Nat)
  /-- A type without any index cannot be scanned. -/
  | noIndexForType (typeName : String)
  /-- A step that changes access paths has left another node at the top of the tree. -/
  | topChanged
  /-- There is nothing to choose a plan from. -/
  | noCandidate
  deriving DecidableEq

/-- Why an index hint cannot be used. -/
inductive HintFault where
  /-- The hint names an extent that the query does not have. -/
  | outsideQuery (index : String) (extent : Nat) (query : List Nat)
  /-- The catalog has no index of that name. -/
  | unknownIndex (index : String)
  /-- The tree has no visit of the extent. -/
  | unknownExtent (index : String) (extent : Nat)
  /-- The index is declared on a type that is no supertype of the extent's. -/
  | notApplicable (index typeName : String)
  deriving DecidableEq

/-- Why a definition is rejected by the catalog. -/
inductive DefinitionFault where
  | typeRegisteredTwice
  | duplicateIndexName
  | noColumns
  | tooManyColumns
  deriving DecidableEq

/-- Why settings cannot be used. -/
inductive SettingsFault where
  /-- The document is not JSON or has values of the wrong kind. -/
  | unreadable
  /-- At least one join order must be allowed. -/
  | noJoinOrders
  | notACount (variableName value : String)
  | notABoolean (variableName value : String)
  deriving DecidableEq

/-- A failure of planning, of building a catalog, or of reading settings. -/
inductive PlanError where
  | internal (fault : InternalFault)
  | invalidHint (fault : HintFault)
  | invalidDefinition (name : String) (fault : DefinitionFault)
  | typeNotFound (typeName : String)
  | settings (fault : SettingsFault)
  deriving DecidableEq

/-- A result that may be a failure of planning. -/
abbrev Planned (α : Type) := Except PlanError α

namespace InternalFault

/-- What has gone wrong, in words. -/
def wording : InternalFault → String
  | extentOutOfRange extent => "extent number " ++ toString extent ++ " out of range [0, 64)"
  | missingFromOrder extent order =>
    "extent " ++ toString extent ++ " missing from extent order " ++ Listing.bracketed order
  | tooDeepToList extent position bound =>
    "extent " ++ toString extent ++ " at position " ++ toString position
      ++ " exceeds subset enumeration bound " ++ toString bound
  | irreversibleOperator operator => "comparison operator " ++ operator ++ " cannot be reversed"
  | noTypeBinding extent => "no type binding for extent " ++ toString extent
  | sortNotCopied => "sort node cannot be cloned"
  | aggregationNotCopied => "aggregation node cannot be cloned"
  | noExtentNode extent => "no extent node for extent " ++ toString extent
  | noJoinForPostFilter condition => "no join can evaluate post filter " ++ condition
  | conditionsOutsidePlan missing total =>
    toString missing ++ " of " ++ toString total ++ " conditions reference extents outside the plan"
  | noIndexForType typeName => "no index for type '" ++ typeName ++ "'"
  | topChanged => "top node changed during sort elimination"
  | noCandidate => "no candidate plan"

end InternalFault

namespace HintFault

/-- What is wrong with the hint, in words. -/
def wording : HintFault → String
  | outsideQuery index extent query =>
    "index hint '" ++ index ++ "' names extent " ++ toString extent ++ ", query has "
      ++ Listing.braced query
  | unknownIndex index => "unknown index '" ++ index ++ "'"
  | unknownExtent index extent =>
    "index hint '" ++ index ++ "' names unknown extent " ++ toString extent
  | notApplicable index typeName =>
    "index '" ++ index ++ "' does not apply to type '" ++ typeName ++ "'"

end HintFault

namespace DefinitionFault

/-- What is wrong with the definition, in words. -/
def wording : DefinitionFault → String
  | typeRegisteredTwice => "type registered twice"
  | duplicateIndexName => "duplicate index name"
  | noColumns => "index has no columns"
  | tooManyColumns => "too many columns"

end DefinitionFault

namespace SettingsFault

/-- What is wrong with the settings, in words. -/
def wording : SettingsFault → String
  | unreadable => "not a settings document"
  | noJoinOrders => "max_permutations must be at least 1"
  | notACount variableName value => variableName ++ ": '" ++ value ++ "' is not a count"
  | notABoolean variableName value => variableName ++ ": '" ++ value ++ "' is not a boolean"

end SettingsFault

namespace PlanError

/-- The wording of every failure, with its family in front. -/
def message : PlanError → String
  | internal fault => "internal planner error: " ++ fault.wording
  | invalidHint fault => "invalid hint: " ++ fault.wording
  | invalidDefinition name fault => "invalid index definition '" ++ name ++ "': " ++ fault.wording
  | typeNotFound typeName => "type '" ++ typeName ++ "' not found"
  | settings fault => "configuration error: " ++ fault.wording

end PlanError

end ExtentPlanner
