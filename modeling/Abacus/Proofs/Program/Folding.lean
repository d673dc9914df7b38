import Abacus.Proofs.Expr.Parts
import Abacus.Proofs.Outcome
import Abacus.Proofs.Program.Compilation
import Mathlib.Data.List.Forall2

/-!
# What is folded

To fold constants takes each operation by itself: it is replaced by its value if the values of its
sides are known.  This comes to the same as to look at whole parts of the expression.  A part has a
known value exactly if there are no names in it and it has a value; so these parts are folded, all
of them and no other ones, and an operation that fails leaves those around it as they are.

## Main definitions

* `Expr.closedValue?` — the value of an expression without names.
* `Operation.isFoldable` — an operation without names that has a value.
* `Fold.Records` — the replacement that tells of an operation.

## Main results

* `known_compile` — the value that is known of compiled code is that of an expression without names.
* `folds_complete` — **the folds are those of the foldable operations**, in their order.
-/

namespace Abacus

/-- The value of an expression that needs no values of names. -/
def Expr.closedValue? (e : Expr) : Option Number :=
  if e.names = [] then (e.evaluate ∅).toOption else none

/-- There are no names in the operation, and it has a value. -/
def Operation.isFoldable (o : Operation) : Bool := o.expr.names.isEmpty && (o.expr.evaluate ∅).isOk

/-- The replacement tells the operator and the values of both sides and of the operation. -/
structure Fold.Records (fold : Fold) (o : Operation) : Prop where
  left_eq : o.left.evaluate ∅ = .ok fold.left
  operator_eq : o.operator = fold.operator
  right_eq : o.right.evaluate ∅ = .ok fold.right
  value_eq : o.expr.evaluate ∅ = .ok fold.value

/-! ### Expressions without names -/

namespace Expr

variable {e left right : Expr} {operator : Operator} {value : Number}

theorem closedValue?_eq_some_iff :
    e.closedValue? = some value ↔ e.names = [] ∧ e.evaluate ∅ = .ok value := by
  unfold closedValue?
  by_cases h : e.names = []
  · cases e.evaluate ∅ <;> simp [h, Except.toOption]
  · simp [h]

theorem closedValue?_operation_eq_some_iff :
    (operation left operator right).closedValue? = some value ↔
      ∃ a b, left.closedValue? = some a ∧ right.closedValue? = some b ∧
        Number.apply operator a b = .ok value := by
  simp only [closedValue?_eq_some_iff, names_operation, List.append_eq_nil_iff, evaluate_operation,
    Except.bind_eq_ok_iff]
  constructor
  · rintro ⟨⟨hleft, hright⟩, a, ha, b, hb, h⟩
    exact ⟨a, b, ⟨hleft, ha⟩, ⟨hright, hb⟩, h⟩
  · rintro ⟨a, b, ⟨hleft, ha⟩, ⟨hright, hb⟩, h⟩
    exact ⟨⟨hleft, hright⟩, a, ha, b, hb, h⟩

end Expr

theorem Operation.isFoldable_iff {o : Operation} :
    o.isFoldable = true ↔ ∃ value, o.expr.closedValue? = some value := by
  simp only [Expr.closedValue?_eq_some_iff, isFoldable, Bool.and_eq_true, List.isEmpty_iff]
  cases o.expr.evaluate ∅ <;> simp [Except.isOk, Except.toBool]

/-! ### One operation -/

namespace Code

variable {left right : Code} {l r : Expr} {operator : Operator} {fold : Fold}

theorem fold?_eq_some_iff :
    left.fold? operator right = some fold ↔
      left.known = some fold.left ∧ operator = fold.operator ∧ right.known = some fold.right ∧
        Number.apply operator fold.left fold.right = .ok fold.value := by
  obtain ⟨a, operator', b, value⟩ := fold
  unfold fold?
  -- A fold needs a known value on both sides and an operation that does not fail.
  cases left.known with
  | none => simp
  | some a' =>
    cases right.known with
    | none => simp
    | some b' =>
      constructor
      · intro h
        dsimp only at h
        split at h
        · next value' happly =>
          cases h
          exact ⟨rfl, rfl, rfl, happly⟩
        · cases h
      · rintro ⟨ha, hoperator, hb, happly⟩
        cases ha
        cases hb
        cases hoperator
        simp only [happly]

theorem known_join_true :
    (left.join true operator right).1.known = (left.fold? operator right).map Fold.value := by
  unfold join
  cases left.fold? operator right <;> rfl

theorem folds_join_true :
    (left.join true operator right).2 = (left.fold? operator right).toList := by
  unfold join
  cases left.fold? operator right <;> rfl

/-- An operation is folded to the value that it has as a whole. -/
theorem map_value_fold? (operator : Operator) (hleft : left.known = l.closedValue?)
    (hright : right.known = r.closedValue?) :
    (left.fold? operator right).map Fold.value
      = (Expr.operation l operator r).closedValue? := by
  ext value
  rw [Option.map_eq_some_iff, Expr.closedValue?_operation_eq_some_iff, ← hleft, ← hright]
  constructor
  · rintro ⟨fold, hfold, rfl⟩
    obtain ⟨ha, -, hb, happly⟩ := fold?_eq_some_iff.mp hfold
    exact ⟨fold.left, fold.right, ha, hb, happly⟩
  · rintro ⟨a, b, ha, hb, happly⟩
    exact ⟨⟨a, operator, b, value⟩, fold?_eq_some_iff.mpr ⟨ha, rfl, hb, happly⟩, rfl⟩

theorem records_of_fold? (hleft : left.known = l.closedValue?)
    (hright : right.known = r.closedValue?) (hfold : left.fold? operator right = some fold) :
    fold.Records ⟨l, operator, r⟩ := by
  have hvalue : (Expr.operation l operator r).closedValue? = some fold.value := by
    rw [← map_value_fold? operator hleft hright, hfold]
    rfl
  obtain ⟨ha, hoperator, hb, -⟩ := fold?_eq_some_iff.mp hfold
  rw [hleft] at ha
  rw [hright] at hb
  exact {
    left_eq := (Expr.closedValue?_eq_some_iff.mp ha).2
    operator_eq := hoperator
    right_eq := (Expr.closedValue?_eq_some_iff.mp hb).2
    value_eq := (Expr.closedValue?_eq_some_iff.mp hvalue).2 }

/-- **An operation is folded exactly if it is foldable.** -/
theorem forall₂_fold? (operator : Operator) (hleft : left.known = l.closedValue?)
    (hright : right.known = r.closedValue?) :
    List.Forall₂ Fold.Records (left.fold? operator right).toList
      ([⟨l, operator, r⟩].filter Operation.isFoldable) := by
  -- There is one record or none, and the operation is foldable in the first case only.
  have hvalue := map_value_fold? operator hleft hright
  cases hfold : left.fold? operator right with
  | none =>
    have hnot : ¬ Operation.isFoldable ⟨l, operator, r⟩ = true := by
      intro hfoldable
      obtain ⟨value, hsome⟩ := Operation.isFoldable_iff.mp hfoldable
      rw [hfold] at hvalue
      exact nomatch hvalue.trans hsome
    rw [List.filter_cons_of_neg hnot]
    exact .nil
  | some fold =>
    rw [hfold] at hvalue
    have hfoldable : Operation.isFoldable ⟨l, operator, r⟩ = true :=
      Operation.isFoldable_iff.mpr ⟨fold.value, hvalue.symm⟩
    rw [List.filter_cons_of_pos hfoldable]
    exact .cons (records_of_fold? hleft hright hfold) .nil

end Code

/-! ### Whole expressions -/

/-- **The value known of compiled code is that of an expression without names.** -/
theorem known_compile (e : Expr) : (e.compile true).1.known = e.closedValue? := by
  induction e with
  | constant value => rfl
  | reference name => rfl
  | operation left operator right ihleft ihright =>
    have hknown : ((Expr.operation left operator right).compile true).1.known
        = ((left.compile true).1.join true operator (right.compile true).1).1.known := rfl
    rw [hknown, Code.known_join_true, Code.map_value_fold? operator ihleft ihright]

/-- The folds are those of the foldable operations. -/
theorem forall₂_folds_compile (e : Expr) :
    List.Forall₂ Fold.Records (e.compile true).2 (e.operations.filter Operation.isFoldable) := by
  induction e with
  | constant value => exact .nil
  | reference name => exact .nil
  | operation left operator right ihleft ihright =>
    have hfolds : ((Expr.operation left operator right).compile true).2
        = (left.compile true).2 ++ (right.compile true).2 ++
            ((left.compile true).1.join true operator (right.compile true).1).2 := rfl
    -- The records of the parts come first, as their operations do.
    rw [hfolds, Code.folds_join_true, Expr.operations_operation, List.filter_append,
      List.filter_append]
    have hroot := Code.forall₂_fold? operator (known_compile left) (known_compile right)
    exact List.rel_append (List.rel_append ihleft ihright) hroot

theorem folds_compile_false (e : Expr) : (e.compile false).2 = [] := by
  induction e with
  | constant value => rfl
  | reference name => rfl
  | operation left operator right ihleft ihright =>
    have hfolds : ((Expr.operation left operator right).compile false).2
        = (left.compile false).2 ++ (right.compile false).2 ++ [] := rfl
    rw [hfolds, ihleft, ihright]
    rfl

/-- **Folding is complete and exact.**  The folds that are made for an expression are those of its
operations without names that have a value, in the order left side, right side, operation, and each
tells the values of its sides and its own.  If folding is not wanted none is made. -/
theorem folds_complete (e : Expr) :
    List.Forall₂ Fold.Records (Program.ofExpr true e).2
      (e.operations.filter Operation.isFoldable) ∧
    (Program.ofExpr false e).2 = [] :=
  ⟨forall₂_folds_compile e, folds_compile_false e⟩

/-- A quotient by zero is not folded, nor is the sum around it; the product beside it is. -/
example :
    let quotient : Expr := .operation (.constant (.integer 1)) .divide (.constant (.integer 0))
    let product : Expr := .operation (.constant (.integer 2)) .multiply (.constant (.integer 3))
    (Program.ofExpr true (.operation quotient .add product)).2
      = [⟨.integer 2, .multiply, .integer 3, .integer 6⟩] := by
  rfl

end Abacus
