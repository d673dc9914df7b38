import Abacus.Expr.Basic

/-!
# The parts of an expression

At the leaves of an expression stand constants and names, and its operations join them.  It is
evaluated and compiled operation by operation: first those of the left side, then those of the right
side, and then the one that joins the two.

## Main definitions

* `Leaf`, `Expr.leaves` — the leaves of an expression from left to right.
* `Expr.constants` — the constants among them.
* `Operation` — an operation with its two sides.
* `Expr.operations` — the operations of an expression, in the order in which they are done.
-/

namespace Abacus

/-- What stands at a leaf. -/
inductive Leaf
  | constant (value : Number)
  | reference (name : String)

/-- The name at a leaf, if there is one. -/
def Leaf.name? : Leaf → Option String
  | constant _ => none
  | reference name => some name

/-- An operator with the two sides that it joins. -/
structure Operation where
  left : Expr
  operator : Operator
  right : Expr

/-- The operation as an expression. -/
def Operation.expr (o : Operation) : Expr := .operation o.left o.operator o.right

namespace Expr

/-- The leaves of an expression, from left to right. -/
def leaves : Expr → List Leaf
  | constant value => [.constant value]
  | reference name => [.reference name]
  | operation left _ right => left.leaves ++ right.leaves

/-- The constants at the leaves, from left to right. -/
def constants : Expr → List Number
  | constant value => [value]
  | reference _ => []
  | operation left _ right => left.constants ++ right.constants

/-- The operations of an expression; those of the left side come first, and the one that joins the
sides comes last. -/
def operations : Expr → List Operation
  | constant _ => []
  | reference _ => []
  | operation left operator right =>
    left.operations ++ right.operations ++ [⟨left, operator, right⟩]

@[simp] theorem leaves_constant (value : Number) : (constant value).leaves = [.constant value] := rfl

@[simp] theorem leaves_reference (name : String) : (reference name).leaves = [.reference name] :=
  rfl

@[simp] theorem leaves_operation (left : Expr) (operator : Operator) (right : Expr) :
    (operation left operator right).leaves = left.leaves ++ right.leaves := rfl

/-- The names are those of the leaves. -/
theorem filterMap_name?_leaves (e : Expr) : e.leaves.filterMap Leaf.name? = e.names := by
  induction e with
  | constant value => rfl
  | reference name => rfl
  | operation left operator right ihleft ihright =>
    rw [leaves_operation, List.filterMap_append, ihleft, ihright, names_operation]

@[simp] theorem operations_constant (value : Number) : (constant value).operations = [] := rfl

@[simp] theorem operations_reference (name : String) : (reference name).operations = [] := rfl

@[simp] theorem operations_operation (left : Expr) (operator : Operator) (right : Expr) :
    (operation left operator right).operations
      = left.operations ++ right.operations ++ [⟨left, operator, right⟩] := rfl

end Expr

end Abacus
