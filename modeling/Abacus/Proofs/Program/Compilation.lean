import Abacus.Program

/-!
# Compiled expressions

The code of an expression does what the expression means, whatever was folded in it.  The two facts
that carry this from the leaves up are that the code runs like the expression, and that a value it
is known to have before any run is the value of the expression under all bindings.

## Main definitions

* `Code.Implements` — these two facts.

## Main results

* `Code.Implements.operation`, `Code.Implements.constant_of_fold?` — an operation, left as it is or
  folded.
* `implements_compile` — compiled code implements its expression.
* `run_ofExpr` — a program runs like the expression it was made of.
* `compilation_preserves_meaning` — **all that a program tells is told by its expression**.
-/

namespace Abacus

/-- Code that does what an expression means. -/
structure Code.Implements (code : Code) (e : Expr) : Prop where
  run_eq : ∀ bindings, code.run bindings = e.evaluate bindings
  evaluate_of_known : ∀ value, code.known = some value →
    ∀ bindings, e.evaluate bindings = .ok value

namespace Code

variable {left right : Code} {operator : Operator} {l r : Expr}

theorem implements_constant {e : Expr} {value : Number}
    (h : ∀ bindings, e.evaluate bindings = .ok value) : (constant value).Implements e := by
  refine ⟨fun bindings => (h bindings).symm, ?_⟩
  intro value' hvalue bindings
  obtain rfl : value = value' := Option.some.inj hvalue
  exact h bindings

theorem implements_reference (name : String) : (reference name).Implements (.reference name) :=
  ⟨fun _ => rfl, fun _ h => nomatch h⟩

/-- An operation that was folded had known sides and a value. -/
theorem of_fold?_eq_some {fold : Fold} (h : left.fold? operator right = some fold) :
    ∃ a b, left.known = some a ∧ right.known = some b ∧
      Number.apply operator a b = .ok fold.value := by
  unfold fold? at h
  split at h
  · next a b hleft hright =>
    split at h
    · next value hvalue =>
      obtain rfl := Option.some.inj h
      exact ⟨a, b, hleft, hright, hvalue⟩
    · exact nomatch h
  · exact nomatch h

/-- The left side runs first, and an error of it is the error of the operation. -/
theorem Implements.operation (hl : left.Implements l) (hr : right.Implements r) :
    (left.operation operator right).Implements (.operation l operator r) := by
  refine ⟨fun bindings => ?_, fun _ h => nomatch h⟩
  have hrun : (left.operation operator right).run bindings
      = (left.run bindings).bind fun a =>
          (right.run bindings).bind fun b => Number.apply operator a b := rfl
  rw [hrun, hl.run_eq, hr.run_eq, Expr.evaluate_operation]

theorem Implements.constant_of_fold? (hl : left.Implements l) (hr : right.Implements r)
    {fold : Fold} (h : left.fold? operator right = some fold) :
    (constant fold.value).Implements (.operation l operator r) := by
  obtain ⟨a, b, hleft, hright, hvalue⟩ := of_fold?_eq_some h
  refine implements_constant fun bindings => ?_
  rw [Expr.evaluate_operation, hl.evaluate_of_known a hleft bindings,
    hr.evaluate_of_known b hright bindings]
  exact hvalue

theorem Implements.join (hl : left.Implements l) (hr : right.Implements r) (folding : Bool) :
    (left.join folding operator right).1.Implements (.operation l operator r) := by
  unfold Code.join
  split
  · next fold hfold =>
    have hfold? : left.fold? operator right = some fold := by
      cases folding with
      | false => exact nomatch hfold
      | true => exact hfold
    exact hl.constant_of_fold? hr hfold?
  · exact hl.operation hr

end Code

/-- **Compiled code implements its expression.** -/
theorem implements_compile (folding : Bool) (e : Expr) : (e.compile folding).1.Implements e := by
  induction e with
  | constant value => exact Code.implements_constant fun _ => rfl
  | reference name => exact Code.implements_reference name
  | operation left operator right ihleft ihright => exact ihleft.join ihright folding

theorem run_ofExpr (folding : Bool) (e : Expr) (bindings : Bindings) :
    (Program.ofExpr folding e).1.run bindings = e.evaluate bindings :=
  (implements_compile folding e).run_eq bindings

/-- **All that a program tells is told by its expression**: its text, its names, and its value or
its error under any bindings.  So a text has the same outcome compiled and run as evaluated at
once. -/
theorem compilation_preserves_meaning (folding : Bool) :
    (∀ e : Expr, (Program.ofExpr folding e).1.text = e.text ∧
      (Program.ofExpr folding e).1.references = e.references ∧
      ∀ bindings, (Program.ofExpr folding e).1.run bindings = e.evaluate bindings) ∧
    (∀ (text : String) (bindings : Bindings),
      ((Program.ofText folding text).bind fun compiled =>
        (compiled.1.run bindings).mapError Error.eval) = calculate text bindings) := by
  refine ⟨fun e => ⟨rfl, rfl, run_ofExpr folding e⟩, ?_⟩
  intro text bindings
  unfold Program.ofText calculate
  -- A text that cannot be read fails alike on both sides.
  cases Expr.parse text with
  | error error => rfl
  | ok e =>
    have hrun := run_ofExpr folding e bindings
    show ((Program.ofExpr folding e).1.run bindings).mapError Error.eval = _
    rw [hrun]
    rfl

end Abacus
