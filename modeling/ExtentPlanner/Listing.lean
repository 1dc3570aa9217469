/-!
Written lists. Messages and plan texts show lists of numbers between square brackets and sets of
numbers between braces, with a comma and a blank between neighbours.
-/
namespace ExtentPlanner.Listing

/-- The texts in order with a comma and a blank between neighbours. -/
def commaSeparated (texts : List String) : String :=
  String.intercalate ", " texts

/-- A list of numbers between square brackets. -/
def bracketed (numbers : List Nat) : String :=
  "[" ++ commaSeparated (numbers.map toString) ++ "]"

/-- A set of numbers, given by its members, between braces. -/
def braced (members : List Nat) : String :=
  "\x7b" ++ commaSeparated (members.map toString) ++ "\x7d"

end ExtentPlanner.Listing
