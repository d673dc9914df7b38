import Abacus.Number.Arithmetic

/-!
# Expressions

An expression is a tree: an operator joins two sides, and its leaves are constants and names.

## Main definitions

* `Expr` — the trees.
* `Expr.depth` — the number of levels of a tree.
* `Expr.names`, `Expr.references` — the names at its leaves from left to right, and each but once.
* `Expr.text`, `Expr.prefixForm` — two written forms: the one with every operation in parentheses,
  and the one with the operator in front.
-/

namespace Abacus

/-- An arithmetic expression. -/
inductive Expr
  | constant (value : Number)
  | reference (name : String)
  | operation (left : Expr) (operator : Operator) (right : Expr)
  deriving BEq, Repr

namespace Expr

/-- The number of levels: one for a leaf, and one more than the deeper side for an operation. -/
def depth : Expr → Nat
  | constant _ => 1
  | reference _ => 1
  | operation left _ right => max left.depth right.depth + 1

/-- The names at the leaves, from left to right. -/
def names : Expr → List String
  | constant _ => []
  | reference name => [name]
  | operation left _ right => left.names ++ right.names

/-- The names that have to be given values, in the order in which they first occur. -/
def references (e : Expr) : List String := e.names.eraseDups

/-- The written form in which every operation stands in parentheses. -/
def text : Expr → String
  | constant value => value.text
  | reference name => name
  | operation left operator right =>
    "(" ++ left.text ++ " " ++ operator.symbol ++ " " ++ right.text ++ ")"

/-- The written form with operators in front of their sides and names marked by a dollar sign. -/
def prefixForm : Expr → String
  | constant value => value.text
  | reference name => "$" ++ name
  | operation left operator right =>
    "(" ++ operator.symbol ++ " " ++ left.prefixForm ++ " " ++ right.prefixForm ++ ")"

@[simp] theorem depth_constant (value : Number) : (constant value).depth = 1 := rfl

@[simp] theorem depth_reference (name : String) : (reference name).depth = 1 := rfl

@[simp] theorem depth_operation (left : Expr) (operator : Operator) (right : Expr) :
    (operation left operator right).depth = max left.depth right.depth + 1 := rfl

theorem depth_pos (e : Expr) : 0 < e.depth := by
  cases e <;> simp

@[simp] theorem names_constant (value : Number) : (constant value).names = [] := rfl

@[simp] theorem names_reference (name : String) : (reference name).names = [name] := rfl

@[simp] theorem names_operation (left : Expr) (operator : Operator) (right : Expr) :
    (operation left operator right).names = left.names ++ right.names := rfl

theorem mem_references {e : Expr} {name : String} : name ∈ e.references ↔ name ∈ e.names :=
  List.mem_eraseDups

end Expr

end Abacus
