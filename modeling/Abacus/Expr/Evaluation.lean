import Abacus.Expr.Basic
import Std.Data.TreeMap

/-!
# Evaluation

## Main definitions

* `Bindings` — the values of names, in the order of the names.
* `Expr.evaluate` — the value of an expression, or why it has none.
-/

namespace Abacus

/-- Values for names. -/
abbrev Bindings := Std.TreeMap String Number

/-- The value of a name. -/
def Bindings.value (bindings : Bindings) (name : String) : Except EvalError Number :=
  match bindings[name]? with
  | some value => .ok value
  | none => .error (.unbound name)

namespace Expr

/-- The value of an expression.  The left side is evaluated before the right one, and the first
error ends the evaluation. -/
def evaluate (bindings : Bindings) : Expr → Except EvalError Number
  | constant value => .ok value
  | reference name => bindings.value name
  | operation left operator right => do
    let a ← left.evaluate bindings
    let b ← right.evaluate bindings
    Number.apply operator a b

@[simp] theorem evaluate_constant (bindings : Bindings) (value : Number) :
    (constant value).evaluate bindings = .ok value := rfl

@[simp] theorem evaluate_reference (bindings : Bindings) (name : String) :
    (reference name).evaluate bindings = bindings.value name := rfl

theorem evaluate_operation (bindings : Bindings) (left : Expr) (operator : Operator)
    (right : Expr) :
    (operation left operator right).evaluate bindings
      = (left.evaluate bindings).bind fun a =>
          (right.evaluate bindings).bind fun b => Number.apply operator a b := rfl

end Expr

end Abacus
