import Abacus.Error.Evaluation
import Abacus.Number.Literal

/-!
# Arithmetic of numbers

Two integers are computed with exactly, and the result has to be an integer of 64 bits again; it
never wraps.  As soon as one side is a float the other becomes one, and nothing can fail.

## Main definitions

* `Operator.onInts`, `Operator.onFloats` — what an operator does on either kind.
* `Number.apply` — an operator on two numbers.
* `Number.neg` — the number with its sign turned.
-/

namespace Abacus

namespace Operator

/-- The exact result of an operator on whole numbers; a quotient is cut off toward zero, and there
is none by zero. -/
def onInts : Operator → Int → Int → Except EvalError Int
  | add, a, b => .ok (a + b)
  | subtract, a, b => .ok (a - b)
  | multiply, a, b => .ok (a * b)
  | divide, a, b => if b = 0 then .error .divisionByZero else .ok (a.tdiv b)

/-- The result of an operator on floats. -/
def onFloats : Operator → Float → Float → Float
  | add, x, y => x.add y
  | subtract, x, y => x.sub y
  | multiply, x, y => x.mul y
  | divide, x, y => x.div y

end Operator

namespace Number

/-- A whole number as the result of an operator. -/
def ofResult (operator : Operator) (n : Int) : Except EvalError Number :=
  match integer? n with
  | some i => .ok (integer i)
  | none => .error (.overflow operator)

/-- An operator on two numbers. -/
def apply (operator : Operator) : Number → Number → Except EvalError Number
  | integer a, integer b => (operator.onInts a.toInt b.toInt).bind (ofResult operator)
  | a, b => .ok (float (operator.onFloats a.toFloat b.toFloat))

/-- The number with its sign turned.  The least integer has no opposite of its kind and becomes a
float. -/
def neg : Number → Number
  | integer a =>
    match integer? (-a.toInt) with
    | some i => integer i
    | none => float (floatOfInteger a).neg
  | float x => float x.neg

instance : Neg Number := ⟨neg⟩

@[simp] theorem apply_float_left (operator : Operator) (x : Float) (b : Number) :
    apply operator (float x) b = .ok (float (operator.onFloats x b.toFloat)) := by
  cases b <;> rfl

@[simp] theorem apply_float_right (operator : Operator) (a : Number) (y : Float) :
    apply operator a (float y) = .ok (float (operator.onFloats a.toFloat y)) := by
  cases a <;> rfl

@[simp] theorem apply_integer (operator : Operator) (a b : Int64) :
    apply operator (integer a) (integer b)
      = (operator.onInts a.toInt b.toInt).bind (ofResult operator) := rfl

end Number

end Abacus
