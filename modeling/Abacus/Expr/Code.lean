import Abacus.Expr.Evaluation

/-!
# Compiling expressions

An expression is compiled once and run as often as there are values for its names.  On request an
operation on two values that are known before any run is replaced by its own value, and this from
the leaves up, so that a part without names comes down to one value as far as its values exist.  An
operation that fails stays as it is and fails when it is run.

## Main definitions

* `Code` — what an expression is compiled to: how to run it, and its value if that is known.
* `Fold` — a replacement that was made.
* `Code.join` — the code of an operation, from that of its sides.
* `Expr.compile` — the code of an expression, and the replacements in the order left side, right
  side, operation.
-/

namespace Abacus

/-- An operation on known values that was replaced by its own. -/
structure Fold where
  left : Number
  operator : Operator
  right : Number
  value : Number
  deriving BEq, Repr

/-- What is told of a replacement. -/
def Fold.text (fold : Fold) : String :=
  fold.left.text ++ " " ++ fold.operator.symbol ++ " " ++ fold.right.text ++ " into "
    ++ fold.value.text

/-- What an expression is compiled to. -/
structure Code where
  /-- The value under given values of the names. -/
  run : Bindings → Except EvalError Number
  /-- The value, if it is known without any. -/
  known : Option Number

namespace Code

/-- The code of a constant. -/
def constant (value : Number) : Code := ⟨fun _ => .ok value, some value⟩

/-- The code of a name. -/
def reference (name : String) : Code := ⟨fun bindings => bindings.value name, none⟩

/-- The code that runs the left side, then the right side, and then does the operation. -/
def operation (left : Code) (operator : Operator) (right : Code) : Code where
  run bindings := do
    let a ← left.run bindings
    let b ← right.run bindings
    Number.apply operator a b
  known := none

/-- The replacement of an operation, if both sides are known and the operation on them has a
value. -/
def fold? (left : Code) (operator : Operator) (right : Code) : Option Fold :=
  match left.known, right.known with
  | some a, some b =>
    match Number.apply operator a b with
    | .ok value => some ⟨a, operator, b, value⟩
    | .error _ => none
  | _, _ => none

/-- The code of an operation, which is folded if that is wanted and can be done. -/
def join (folding : Bool) (left : Code) (operator : Operator) (right : Code) : Code × List Fold :=
  match if folding then left.fold? operator right else none with
  | some fold => (constant fold.value, [fold])
  | none => (operation left operator right, [])

end Code

/-- The code of an expression, and the replacements made for it. -/
def Expr.compile (folding : Bool) : Expr → Code × List Fold
  | constant value => (.constant value, [])
  | reference name => (.reference name, [])
  | operation left operator right =>
    let left := left.compile folding
    let right := right.compile folding
    let root := left.1.join folding operator right.1
    (root.1, left.2 ++ right.2 ++ root.2)

end Abacus
