import ExtentPlanner.Blank
import ExtentPlanner.Settings

/-!
Settings from the environment. Each setting has a variable; a variable that is set takes the place
of the setting, and blanks around its value do not count.
-/
namespace ExtentPlanner.Settings

def maxJoinOrdersVariable : String := "OBJQL_OPTIMIZER_MAX_PERMUTATIONS"

def generatedFiltersVariable : String := "OBJQL_OPTIMIZER_COMPILED_FILTERS"

def orderedScansVariable : String := "OBJQL_OPTIMIZER_SORT_ELIMINATION"

/-- The count below 2^64 that is written with decimal digits and perhaps a plus sign. -/
def countOfText? (text : String) : Option Nat :=
  let digits :=
    match Blank.trim text.toList with
    | '+' :: digits => digits
    | digits => digits
  if digits.isEmpty || !digits.all Char.isDigit then none
  else
    some (digits.foldl (fun value digit => 10 * value + (digit.toNat - '0'.toNat)) 0)
      |>.filter (· < UInt64.size)

/-- The truth value that is written as a digit or a word. Only letters of the Latin alphabet without
marks are lowered, as no other character has a lower form that occurs in these words. -/
def flagOfText? (text : String) : Option Bool :=
  let word := String.ofList ((Blank.trim text.toList).map Char.toLower)
  if word = "1" || word = "true" || word = "on" then some true
  else if word = "0" || word = "false" || word = "off" then some false
  else none

/-- The value that a variable sets, or the value there was if the variable is not set. A value that
cannot be read is a fault of the variable. -/
def override {α : Type} (read? : String → Option α) (fault : String → PlanError) (current : α) :
    Option String → Planned α
  | none => .ok current
  | some value =>
    match read? value with
    | some other => .ok other
    | none => .error (fault value)

def overrideCount (variableName : String) (value? : Option String) (current : Nat) : Planned Nat :=
  override countOfText? (fun value => .settings (.notACount variableName value)) current value?

def overrideFlag (variableName : String) (value? : Option String) (current : Bool) : Planned Bool :=
  override flagOfText? (fun value => .settings (.notABoolean variableName value)) current value?

/-- The settings with the values that the environment sets. -/
def withEnvironment (settings : Settings) (environment : String → Option String) :
    Planned Settings := do
  let count ← overrideCount maxJoinOrdersVariable (environment maxJoinOrdersVariable)
    settings.maxJoinOrders
  let generated ← overrideFlag generatedFiltersVariable (environment generatedFiltersVariable)
    settings.generatedFilters
  let ordered ← overrideFlag orderedScansVariable (environment orderedScansVariable)
    settings.orderedScans
  validate ⟨count, generated, ordered⟩

end ExtentPlanner.Settings
