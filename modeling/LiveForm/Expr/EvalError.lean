import LiveForm.Expr.Functions
import LiveForm.Expr.SyntaxError
import LiveForm.Notice

/-!
# Why an expression has no value
-/

namespace LiveForm.Expr

/-- Why an expression has no value. -/
inductive EvalError where
  /-- The text is not an expression. -/
  | malformed (e : SyntaxError)
  /-- A wildcard outside the arguments of an aggregate. -/
  | rowWildcard (name : String)
  | divisionByZero
  | unknownFunction (name : String)
  | wrongArity (f : Function) (got : Nat)
  /-- A result that is infinite or not a number. -/
  | nonFinite (x : Binary64)
  /-- An intermediate result out of range. -/
  | arithmetic
  /-- Operators nested deeper than an evaluation can go. -/
  | tooDeep
  /-- An operation without a result: a sum of both infinities, a remainder of an infinity. -/
  | undefinedOperation
  /-- A result whose rounding is out of range. -/
  | roundingOutOfRange
  /-- A result that is neither a number nor a text. -/
  | notANumber
  /-- An integer with more digits than are written. -/
  | tooManyDigits
  deriving DecidableEq

namespace EvalError

/-- The wording of an error, for those that have one. -/
def message? : EvalError → Option String
  | malformed e => e.message?
  | rowWildcard pattern =>
    some ("Row wildcard '" ++ pattern ++ "' is only allowed inside an aggregate")
  | divisionByZero => some "Division by zero"
  | unknownFunction f => some ("Unknown function '" ++ f ++ "'")
  | wrongArity f got =>
    some (f.name ++ "() takes " ++ f.arityText ++ " argument(s), got " ++ toString got)
  | nonFinite x => some ("Non-finite result: " ++ x.toText)
  | _ => none

/-- The errors that are not turned into zero, because they say that something is wrong with the
evaluation and not with the expression. -/
def escapes : EvalError → Bool
  | malformed (.foreignCharacter _) => true
  | roundingOutOfRange => true
  | _ => false

/-- What is reported where the error arises. -/
def notices : EvalError → List Notice
  | unknownFunction f => [.unknownFunction f]
  | _ => []

end EvalError

end LiveForm.Expr
