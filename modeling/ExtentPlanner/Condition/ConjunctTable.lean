import ExtentPlanner.Condition.Folding

/-!
The conjuncts of a query, grouped by the set of extents they read. A group is the unit that is
handed to one extent of a visitation order, so the groups are kept under their sets, in ascending
order of the sets' numbers, and each group keeps the order in which its conjuncts were added.
-/
namespace ExtentPlanner

/-- A group of conjuncts that read exactly the same extents. -/
structure ConjunctGroup where
  key : ExtentSet
  conditions : List Condition
  deriving DecidableEq

/-- Conjuncts by the extents they read. -/
structure ConjunctTable where
  groups : List ConjunctGroup
  deriving DecidableEq

namespace ConjunctTable

def empty : ConjunctTable := ⟨[]⟩

instance : Inhabited ConjunctTable := ⟨empty⟩

/-- Puts a condition at the end of its group, or starts the group at its place. -/
def insertInto (key : ExtentSet) (condition : Condition) : List ConjunctGroup → List ConjunctGroup
  | [] => [⟨key, [condition]⟩]
  | group :: rest =>
    if key = group.key then ⟨group.key, group.conditions ++ [condition]⟩ :: rest
    else if key.toNat < group.key.toNat then ⟨key, [condition]⟩ :: group :: rest
    else group :: insertInto key condition rest

def insert (table : ConjunctTable) (key : ExtentSet) (condition : Condition) :
    ConjunctTable :=
  ⟨insertInto key condition table.groups⟩

/-- Stores conjuncts from left to right and drops those that are the literal TRUE. A conjunct that
reads an extent which fits no set is the failure; those before it stay stored. -/
def addConjuncts (table : ConjunctTable) :
    List Condition → ConjunctTable × Planned Unit
  | [] => (table, .ok ())
  | condition :: rest =>
    if condition.isTrueLiteral then table.addConjuncts rest
    else
      match condition.extentSet with
      | .ok key => (table.insert key condition).addConjuncts rest
      | .error failure => (table, .error failure)

/-- Folds a condition and stores the operands of its outermost AND chain. -/
def add (table : ConjunctTable) (condition : Condition) :
    ConjunctTable × Planned Unit :=
  table.addConjuncts condition.fold.conjuncts

/-- Adds conditions from left to right, up to the first failure. -/
def addAll (table : ConjunctTable) :
    List Condition → ConjunctTable × Planned Unit
  | [] => (table, .ok ())
  | condition :: rest =>
    match table.add condition with
    | (added, .ok ()) => added.addAll rest
    | (added, .error failure) => (added, .error failure)

/-- The group of exactly this set. -/
def find? (table : ConjunctTable) (key : ExtentSet) : Option (List Condition) :=
  (table.groups.find? fun group => group.key == key).map (·.conditions)

/-- All conjuncts, group after group. -/
def conditions (table : ConjunctTable) : List Condition :=
  table.groups.flatMap (·.conditions)

def size (table : ConjunctTable) : Nat := table.conditions.length

def isEmpty (table : ConjunctTable) : Bool := table.groups.isEmpty

/-- Parameters used as LIKE patterns anywhere, each once, in the order of first use. -/
def patternVariables (table : ConjunctTable) : List Nat :=
  (table.conditions.flatMap Condition.patternParameters).eraseDups

end ConjunctTable

end ExtentPlanner
