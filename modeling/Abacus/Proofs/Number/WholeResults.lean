import Abacus.Number.Arithmetic

/-!
# Results of operators on integers

The result of an operator on two integers is their exact result among all integers, if that has 64
bits.  It fails if there is no such result, which is the case for a quotient by zero only, or if the
result has more bits.  Nothing else fails.

## Main definitions

* `Operator.wholeResult?` — the exact result.

## Main results

* `Number.apply_of_wholeResult?`, `Number.apply_of_wholeResult?_eq_none` — what an operation on two
  integers gives.
* `Number.integers_of_apply_eq_error` — **only operations on two integers fail.**
-/

namespace Abacus

/-- The exact result of an operator, if it has one.  A quotient is cut off toward zero. -/
def Operator.wholeResult? : Operator → Int → Int → Option Int
  | add, a, b => some (a + b)
  | subtract, a, b => some (a - b)
  | multiply, a, b => some (a * b)
  | divide, a, b => if b = 0 then none else some (a.tdiv b)

variable {operator : Operator} {a b : Int64} {n : Int}

theorem Operator.onInts_eq (operator : Operator) (a b : Int) :
    operator.onInts a b = (operator.wholeResult? a b).elim (.error .divisionByZero) .ok := by
  cases operator with
  | add => rfl
  | subtract => rfl
  | multiply => rfl
  | divide =>
    rw [onInts, wholeResult?]
    split <;> rfl

theorem Operator.wholeResult?_eq_none_iff {a b : Int} :
    operator.wholeResult? a b = none ↔ operator = .divide ∧ b = 0 := by
  cases operator <;> simp [wholeResult?]

namespace Number

/-- A result that is an integer of 64 bits is the value of the operation, and any other one
overflows. -/
theorem apply_of_wholeResult? (h : operator.wholeResult? a.toInt b.toInt = some n) :
    apply operator (integer a) (integer b) = ofResult operator n := by
  rw [apply_integer, Operator.onInts_eq, h]
  rfl

theorem apply_of_wholeResult?_eq_none (h : operator.wholeResult? a.toInt b.toInt = none) :
    apply operator (integer a) (integer b) = .error .divisionByZero := by
  rw [apply_integer, Operator.onInts_eq, h]
  rfl

theorem ofResult_of_fitsInteger (operator : Operator) (h : FitsInteger n) :
    ∃ i : Int64, ofResult operator n = .ok (integer i) ∧ i.toInt = n := by
  have hinteger : integer? n = some (Int64.ofInt n) := if_pos h
  exact ⟨Int64.ofInt n, by rw [ofResult, hinteger], toInt_of_integer? hinteger⟩

theorem ofResult_of_not_fitsInteger (h : ¬ FitsInteger n) :
    ofResult operator n = .error (.overflow operator) := by
  have hinteger : integer? n = none := if_neg h
  rw [ofResult, hinteger]

/-- **Only operations on two integers fail**: a quotient by zero, or a result that is no integer of
64 bits. -/
theorem integers_of_apply_eq_error {v w : Number} {error : EvalError}
    (h : apply operator v w = .error error) : v.isInteger = true ∧ w.isInteger = true ∧
      (operator = .divide ∧ error = .divisionByZero ∨ error = .overflow operator) := by
  -- With a float on either side the operation is on floats and never fails.
  cases v with
  | float x =>
    rw [apply_float_left] at h
    cases h
  | integer a =>
    cases w with
    | float y =>
      rw [apply_float_right] at h
      cases h
    | integer b =>
      refine ⟨rfl, rfl, ?_⟩
      -- On integers it fails without a whole result, or with one that does not fit.
      cases hresult : operator.wholeResult? a.toInt b.toInt with
      | none =>
        rw [apply_of_wholeResult?_eq_none hresult] at h
        cases h
        exact .inl ⟨(Operator.wholeResult?_eq_none_iff.mp hresult).1, rfl⟩
      | some n =>
        rw [apply_of_wholeResult? hresult] at h
        by_cases hfits : FitsInteger n
        · obtain ⟨i, hi, -⟩ := ofResult_of_fitsInteger operator hfits
          cases hi.symm.trans h
        · cases (ofResult_of_not_fitsInteger hfits).symm.trans h
          exact .inr rfl

end Number

end Abacus
