import Abacus.Operator

/-!
# What can go wrong in an evaluation

## Main definitions

* `EvalError` — the causes.
* `EvalError.message` — their wording.
-/

namespace Abacus

/-- Why an expression has no value. -/
inductive EvalError
  /-- A name of the expression has no value. -/
  | unbound (name : String)
  /-- A name that was given a value is none of the expression's. -/
  | unknownBinding (name : String)
  /-- A division of an integer by the integer zero. -/
  | divisionByZero
  /-- The result of an operation on integers is no 64-bit integer. -/
  | overflow (operator : Operator)
  deriving DecidableEq, Repr

/-- What is reported for an evaluation that failed. -/
def EvalError.message : EvalError → String
  | unbound name => "No binding for \"" ++ name ++ "\""
  | unknownBinding name => "Unknown binding \"" ++ name ++ "\""
  | divisionByZero => "Division by zero"
  | overflow operator => "Integer overflow in " ++ operator.symbol

end Abacus
