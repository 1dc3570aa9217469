import ExtentPlanner.Json
import ExtentPlanner.Settings

/-!
Settings as a JSON document. A document is an object with a member for each setting, or an array
of the settings in order; settings that are left out keep their standard values. Other members are
ignored, a repeated setting is refused.
-/
namespace ExtentPlanner.Settings

/-- The settings that a document has. -/
structure Given where
  maxJoinOrders? : Option Nat
  generatedFilters? : Option Bool
  orderedScans? : Option Bool

namespace Given

def none : Given := ⟨.none, .none, .none⟩

/-- The settings with standard values where nothing is given. -/
def complete (given : Given) : Settings where
  maxJoinOrders := given.maxJoinOrders?.getD standard.maxJoinOrders
  generatedFilters := given.generatedFilters?.getD standard.generatedFilters
  orderedScans := given.orderedScans?.getD standard.orderedScans

end Given

def maxJoinOrdersName : String := "max_permutations"

def generatedFiltersName : String := "use_compiled_filters"

def orderedScansName : String := "sort_elimination"

/-- A count of join orders, which is below 2^64. -/
def joinOrderCount? (value : Json) : Option Nat := value.count?.filter (· < UInt64.size)

/-- A value for a setting that has none yet. -/
def giveOnce? {α : Type} (already? value? : Option α) : Option (Option α) :=
  match already?, value? with
  | none, some value => some (some value)
  | _, _ => none

/-- Takes a member of a document. -/
def readMember? (given : Given) : Option String × Json → Option Given
  | (none, _) => none
  | (some name, value) =>
    if name = maxJoinOrdersName then
      (giveOnce? given.maxJoinOrders? (joinOrderCount? value)).map fun given? =>
        { given with maxJoinOrders? := given? }
    else if name = generatedFiltersName then
      (giveOnce? given.generatedFilters? value.bool?).map fun given? =>
        { given with generatedFilters? := given? }
    else if name = orderedScansName then
      (giveOnce? given.orderedScans? value.bool?).map fun given? =>
        { given with orderedScans? := given? }
    else some given

/-- Takes the elements of a document without names. -/
def readElements? : List Json → Option Given
  | [] => some .none
  | [count] => do some ⟨some (← joinOrderCount? count), none, none⟩
  | [count, generated] => do
    some ⟨some (← joinOrderCount? count), some (← generated.bool?), none⟩
  | [count, generated, ordered] => do
    let count ← joinOrderCount? count
    some ⟨some count, some (← generated.bool?), some (← ordered.bool?)⟩
  | _ => none

/-- The settings that a document gives. -/
def given? : Json → Option Given
  | .object members => members.foldlM readMember? .none
  | .array elements => readElements? elements
  | _ => none

/-- Reads settings from a document. -/
def ofDocument (document : String) : Planned Settings :=
  match (Json.read? document).bind given? with
  | some given => given.complete.validate
  | none => .error (.settings .unreadable)

/-- A truth value as a document has it. -/
def boolText (value : Bool) : String := if value then "true" else "false"

/-- Writes one member of a document. -/
def memberText (name value : String) : String := "\"" ++ name ++ "\":" ++ value

/-- Writes settings as a document. -/
def document (settings : Settings) : String :=
  "\x7b" ++ memberText maxJoinOrdersName (toString settings.maxJoinOrders)
    ++ "," ++ memberText generatedFiltersName (boolText settings.generatedFilters)
    ++ "," ++ memberText orderedScansName (boolText settings.orderedScans) ++ "\x7d"

end ExtentPlanner.Settings
