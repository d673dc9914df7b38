import Abacus.Proofs.Expr.Parts
import Abacus.Proofs.Program.ReadNames

/-!
# The kinds of values

Operators look at the kinds of their two sides only.  Over a whole expression this comes to a law
about its leaves: if integers stand at all of them the value is an integer, and one float among them
makes the value a float, wherever it stands.  Floats never fail, so an operation that fails has
integers at all of its leaves.

## Main definitions

* `Leaf.value?` — the number that a leaf stands for.
* `Expr.AllIntegers`, `Expr.SomeFloat` — what stands at the leaves.

## Main results

* `Number.isInteger_of_apply_eq_ok` — the kind of the result of an operator.
* `Expr.kind_of_evaluate` — the kind of a value.
* `Expr.exists_failing_operation` — an operation that fails, and nothing but integers below it.
* `outcome_kind` — **one float is enough**, however the outcome is reached.
-/

namespace Abacus

/-- The number that a leaf stands for: its constant, or the value of its name. -/
def Leaf.value? (bindings : Bindings) : Leaf → Option Number
  | constant value => some value
  | reference name => bindings[name]?

namespace Expr

/-- All leaves have values, and these are integers. -/
def AllIntegers (bindings : Bindings) (e : Expr) : Prop :=
  ∀ leaf ∈ e.leaves, ∃ n : Int64, leaf.value? bindings = some (.integer n)

/-- One of the leaves has a float as its value. -/
def SomeFloat (bindings : Bindings) (e : Expr) : Prop :=
  ∃ leaf ∈ e.leaves, ∃ x : Float, leaf.value? bindings = some (.float x)

end Expr

/-- **An operator has an integer as its result only if both sides are integers.** -/
theorem Number.isInteger_of_apply_eq_ok {operator : Operator} {a b value : Number}
    (h : apply operator a b = .ok value) : value.isInteger = (a.isInteger && b.isInteger) := by
  -- A float on either side makes a float; two integers make an integer or fail.
  cases a with
  | float x =>
    rw [apply_float_left] at h
    cases h
    rfl
  | integer a =>
    cases b with
    | float y =>
      rw [apply_float_right] at h
      cases h
      rfl
    | integer b =>
      rw [apply_integer] at h
      obtain ⟨n, -, hn⟩ := Except.bind_eq_ok_iff.mp h
      by_cases hfits : FitsInteger n
      · obtain ⟨i, hi, -⟩ := ofResult_of_fitsInteger operator hfits
        cases hi.symm.trans hn
        rfl
      · cases (ofResult_of_not_fitsInteger hfits).symm.trans hn

namespace Expr

variable {e : Expr} {bindings : Bindings} {value : Number} {error : EvalError}

/-! ### Leaves -/

theorem allIntegers_operation {left : Expr} {operator : Operator} {right : Expr} :
    (operation left operator right).AllIntegers bindings
      ↔ left.AllIntegers bindings ∧ right.AllIntegers bindings :=
  List.forall_mem_append

theorem someFloat_operation {left : Expr} {operator : Operator} {right : Expr} :
    (operation left operator right).SomeFloat bindings
      ↔ left.SomeFloat bindings ∨ right.SomeFloat bindings := by
  simp only [SomeFloat, leaves_operation, List.mem_append, or_and_right, exists_or]

theorem not_someFloat_of_allIntegers (h : e.AllIntegers bindings) : ¬ e.SomeFloat bindings := by
  rintro ⟨leaf, hleaf, x, hx⟩
  obtain ⟨n, hn⟩ := h leaf hleaf
  cases hn.symm.trans hx

/-- The law for a leaf: its kind is the kind of its number. -/
theorem kind_of_leaf {leaf : Leaf} (hleaves : e.leaves = [leaf])
    (hvalue : leaf.value? bindings = some value) :
    value.isInteger = true ∧ e.AllIntegers bindings ∨
      value.isInteger = false ∧ e.SomeFloat bindings := by
  have hmem : leaf ∈ e.leaves := hleaves ▸ List.mem_singleton_self leaf
  cases value with
  | integer n =>
    refine .inl ⟨rfl, fun other hother => ?_⟩
    rw [hleaves, List.mem_singleton] at hother
    exact ⟨n, hother ▸ hvalue⟩
  | float x => exact .inr ⟨rfl, leaf, hmem, x, hvalue⟩

/-! ### Values -/

/-- **A value is an integer over nothing but integers, and a float over a float.** -/
theorem kind_of_evaluate (h : e.evaluate bindings = .ok value) :
    value.isInteger = true ∧ e.AllIntegers bindings ∨
      value.isInteger = false ∧ e.SomeFloat bindings := by
  induction e generalizing value with
  | constant constant =>
    refine kind_of_leaf rfl ?_
    cases h
    rfl
  | reference name =>
    refine kind_of_leaf rfl ?_
    rw [evaluate_reference, Bindings.value] at h
    split at h
    · next found hfound =>
      cases h
      exact hfound
    · cases h
  | operation left operator right ihleft ihright =>
    rw [evaluate_operation] at h
    obtain ⟨a, hleft, h⟩ := Except.bind_eq_ok_iff.mp h
    obtain ⟨b, hright, happly⟩ := Except.bind_eq_ok_iff.mp h
    have hkind := Number.isInteger_of_apply_eq_ok happly
    rw [allIntegers_operation, someFloat_operation]
    -- The result is an integer exactly if both operands are, and a float in either tree settles it.
    rcases ihleft hleft with ⟨ha, hintegersl⟩ | ⟨ha, hfloat⟩
    · rcases ihright hright with ⟨hb, hintegersr⟩ | ⟨hb, hfloat⟩
      · exact .inl ⟨by rw [hkind, ha, hb]; rfl, hintegersl, hintegersr⟩
      · exact .inr ⟨by rw [hkind, ha, hb]; rfl, .inr hfloat⟩
    · exact .inr ⟨by rw [hkind, ha]; rfl, .inl hfloat⟩

theorem allIntegers_of_evaluate (h : e.evaluate bindings = .ok value)
    (hinteger : value.isInteger = true) : e.AllIntegers bindings := by
  rcases kind_of_evaluate h with ⟨-, hintegers⟩ | ⟨hfloat, -⟩
  · exact hintegers
  · cases hinteger.symm.trans hfloat

/-! ### Errors -/

/-- **What an operation reports comes from integers only.**  Either a name has no value, or there is
an operation with nothing but integers below it, and the error is its own. -/
theorem exists_failing_operation (h : e.evaluate bindings = .error error) :
    (∃ name, error = .unbound name) ∨
      ∃ o ∈ e.operations, o.expr.AllIntegers bindings ∧ o.expr.evaluate bindings = .error error ∧
        (o.operator = .divide ∧ error = .divisionByZero ∨ error = .overflow o.operator) := by
  induction e with
  | constant value => cases h
  | reference name =>
    rw [evaluate_reference, Bindings.value] at h
    split at h
    · cases h
    · cases h
      exact .inl ⟨name, rfl⟩
  | operation left operator right ihleft ihright =>
    have hself := h
    rw [evaluate_operation] at h
    -- The error is that of the left side, of the right side, or of the operation that joins them.
    rcases Except.bind_eq_error_iff.mp h with hleft | ⟨a, ha, h⟩
    · refine (ihleft hleft).imp_right ?_
      rintro ⟨o, ho, hfails⟩
      exact ⟨o, by simp [ho], hfails⟩
    · rcases Except.bind_eq_error_iff.mp h with hright | ⟨b, hb, happly⟩
      · refine (ihright hright).imp_right ?_
        rintro ⟨o, ho, hfails⟩
        exact ⟨o, by simp [ho], hfails⟩
      · obtain ⟨hintegera, hintegerb, hcause⟩ := Number.integers_of_apply_eq_error happly
        have hintegers : (operation left operator right).AllIntegers bindings :=
          allIntegers_operation.mpr
            ⟨allIntegers_of_evaluate ha hintegera, allIntegers_of_evaluate hb hintegerb⟩
        exact .inr ⟨⟨left, operator, right⟩, by simp, hintegers, hself, hcause⟩

end Expr

/-- **One float is enough.**  A value is an integer exactly if integers stand at all leaves, and a
float exactly if a float stands at one of them.  A division by zero and an overflow come from an
operation of the expression that has nothing but integers at its leaves and fails so by itself. -/
theorem outcome_kind (e : Expr) (way : Way) (bindings : Bindings) :
    (∀ value, e.outcome way bindings = .ok value →
      (value.isInteger = true ↔ e.AllIntegers bindings) ∧
      (value.isInteger = false ↔ e.SomeFloat bindings)) ∧
    (e.outcome way bindings = .error .divisionByZero →
      ∃ o ∈ e.operations, o.operator = .divide ∧ o.expr.AllIntegers bindings ∧
        o.expr.outcome way bindings = .error .divisionByZero) ∧
    ∀ operator, e.outcome way bindings = .error (.overflow operator) →
      ∃ o ∈ e.operations, o.operator = operator ∧ o.expr.AllIntegers bindings ∧
        o.expr.outcome way bindings = .error (.overflow operator) := by
  -- All three ways of evaluating agree, so one of them is enough.
  simp only [Expr.outcome_eq]
  refine ⟨?_, ?_, ?_⟩
  · intro value h
    rcases Expr.kind_of_evaluate h with ⟨hkind, hintegers⟩ | ⟨hkind, hfloat⟩
    · have hnone := Expr.not_someFloat_of_allIntegers hintegers
      simp [hkind, hintegers, hnone]
    · have hnotall : ¬ e.AllIntegers bindings :=
        fun hintegers => Expr.not_someFloat_of_allIntegers hintegers hfloat
      simp [hkind, hfloat, hnotall]
  · intro h
    rcases Expr.exists_failing_operation h with ⟨name, hname⟩ | ⟨o, ho, hintegers, hfails, hcause⟩
    · cases hname
    · -- What failed is an unknown name or an operation on integers; the error says which.
      rcases hcause with ⟨hdivide, -⟩ | hoverflow
      · exact ⟨o, ho, hdivide, hintegers, hfails⟩
      · cases hoverflow
  · intro operator h
    rcases Expr.exists_failing_operation h with ⟨name, hname⟩ | ⟨o, ho, hintegers, hfails, hcause⟩
    · cases hname
    · rcases hcause with ⟨-, hzero⟩ | hoverflow
      · cases hzero
      · cases hoverflow
        exact ⟨o, ho, rfl, hintegers, hfails⟩

/-- A float on the other side does not keep an operation on integers from failing. -/
example :
    let quotient : Expr := .operation (.constant (.integer 1)) .divide (.constant (.integer 0))
    (Expr.operation (.reference "x") .add quotient).outcome .evaluate
      ((∅ : Bindings).insert "x" (.float 0.5)) = .error .divisionByZero := by
  rfl

end Abacus
