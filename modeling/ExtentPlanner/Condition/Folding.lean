import ExtentPlanner.Condition

/-!
Constant folding. A comparison of two literals is replaced by its truth value, TRUE and FALSE
operands are absorbed, and LIKE against a literal pattern becomes an equality or a test for a
beginning where the pattern allows it.
-/
namespace ExtentPlanner

namespace Operator

/-- The truth value of a comparison of two literals, if planning can tell. A null makes every
comparison unknown except the two that test for it. -/
def evaluate? (operator : Operator) (left right : Scalar) : Option Truth :=
  if left.isNull || right.isNull then
    match operator with
    | is => some (.ofBool (left.isNull && right.isNull))
    | isNot => some (.ofBool !(left.isNull && right.isNull))
    | _ => some .unknown
  else
    match operator, left, right with
    | startsWith, .text value, .text beginning =>
      some (.ofBool (beginning.toList.isPrefixOf value.toList))
    | operator, left, right =>
      (left.compare? right).bind fun order => (operator.holds? order).map Truth.ofBool

end Operator

/-- What a LIKE pattern without parameters asks for. -/
inductive Pattern where
  /-- Exactly this text. -/
  | exact (text : String)
  /-- A text that starts with this non-empty beginning. -/
  | beginning (text : String)
  /-- Anything that needs pattern matching. -/
  | general
  deriving DecidableEq

namespace Pattern

def isWild (character : Char) : Bool := character == '%' || character == '_'

def isPlain (text : List Char) : Bool := !text.any isWild

/-- Reads a pattern in which `%` stands for any text and `_` for any character. -/
def ofText (pattern : String) : Pattern :=
  if isPlain pattern.toList then exact pattern
  else
    match pattern.toList.reverse with
    | '%' :: reversed =>
      if !reversed.isEmpty && isPlain reversed then beginning (String.ofList reversed.reverse)
      else general
    | _ => general

end Pattern

namespace Condition

/-- Replaces LIKE against a literal pattern by a simpler comparison where there is one. -/
def simplifyLike (operator : Operator) (left right : Operand) : Condition :=
  match operator, right with
  | .like, .literal (.text pattern) =>
    match Pattern.ofText pattern with
    | .exact text => compare .equal left (.text text)
    | .beginning text => compare .startsWith left (.text text)
    | .general => compare operator left right
  | _, _ => compare operator left right

def foldComparison (operator : Operator) (left right : Operand) : Condition :=
  match left, right with
  | .literal leftValue, .literal rightValue =>
    match operator.evaluate? leftValue rightValue with
    | some value => truth value
    | none => simplifyLike operator left right
  | _, _ => simplifyLike operator left right

/-- AND of two folded operands: FALSE absorbs, TRUE disappears. -/
def foldAnd : Condition → Condition → Condition
  | truth .isFalse, _ | _, truth .isFalse => truth .isFalse
  | truth .isTrue, other | other, truth .isTrue => other
  | left, right => and left right

/-- OR of two folded operands: TRUE absorbs, FALSE disappears. -/
def foldOr : Condition → Condition → Condition
  | truth .isTrue, _ | _, truth .isTrue => truth .isTrue
  | truth .isFalse, other | other, truth .isFalse => other
  | left, right => or left right

/-- NOT of a folded operand. -/
def foldNot : Condition → Condition
  | truth .isTrue => truth .isFalse
  | truth .isFalse => truth .isTrue
  | truth .unknown => truth .unknown
  | inner => not inner

/-- The condition with its constant parts evaluated. -/
def fold : Condition → Condition
  | and left right => foldAnd left.fold right.fold
  | or left right => foldOr left.fold right.fold
  | not inner => foldNot inner.fold
  | compare operator left right => foldComparison operator left right
  | truth value => truth value
  | isType object target => isType object target

/-- The operands of the outermost AND chain. -/
def conjuncts : Condition → List Condition
  | and left right => left.conjuncts ++ right.conjuncts
  | condition => [condition]

end Condition

end ExtentPlanner
