import ExtentPlanner.Operand

/-!
Set functions of an aggregation, evaluated once for each group.
-/
namespace ExtentPlanner

/-- What a set function computes. -/
inductive SetFunctionKind where
  | count
  | sum
  | average
  | minimum
  | maximum
  deriving DecidableEq

namespace SetFunctionKind

def written : SetFunctionKind → String
  | count => "COUNT"
  | sum => "SUM"
  | average => "AVG"
  | minimum => "MIN"
  | maximum => "MAX"

end SetFunctionKind

/-- A set function. Without an argument it is about whole rows. -/
structure SetFunction where
  kind : SetFunctionKind
  argument? : Option Operand
  distinct : Bool
  deriving DecidableEq

namespace SetFunction

def written (function : SetFunction) : String :=
  let argument :=
    match function.argument?, function.distinct with
    | none, _ => "*"
    | some operand, true => "DISTINCT " ++ operand.written
    | some operand, false => operand.written
  function.kind.written ++ "(" ++ argument ++ ")"

end SetFunction

end ExtentPlanner
