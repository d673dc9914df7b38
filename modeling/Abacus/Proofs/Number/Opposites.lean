import Abacus.Proofs.Binary64.Products
import Abacus.Proofs.Binary64.ReadingBack
import Abacus.Proofs.Number.ReadingBack

/-!
# Opposites

The integers reach one farther below zero than above, so the least of them has no opposite among
them.  No literal stands for it, and to turn a sign never leads to it.  Of any other number the
opposite is also its product with minus one.

## Main definitions

* `Number.IsBounded` — the integers that have an opposite, and the finite floats.

## Main results

* `Number.IsBounded.neg` — turning the sign stays within these bounds.
* `Number.isBounded_of_ofLiteralChars?` — **literals are within these bounds**.
* `Number.apply_multiply_minusOne` — **the opposite is the product with minus one**.
-/

namespace Abacus

namespace Number

/-- The integers that have an opposite, and the finite floats. -/
def IsBounded : Number → Prop
  | integer n => -0x7FFFFFFFFFFFFFFF ≤ n.toInt ∧ n.toInt ≤ 0x7FFFFFFFFFFFFFFF
  | float x => x.isFinite = true

theorem IsBounded.neg {v : Number} (h : v.IsBounded) : (-v).IsBounded := by
  cases v with
  | integer n =>
    obtain ⟨hle, hge⟩ := h
    have hfits : FitsInteger (-n.toInt) := by
      unfold FitsInteger
      omega
    have hopposite : integer? (-n.toInt) = some (Int64.ofInt (-n.toInt)) := if_pos hfits
    have htoInt := toInt_of_integer? hopposite
    rw [neg_integer hopposite]
    refine ⟨?_, ?_⟩ <;> rw [htoInt] <;> omega
  | float x =>
    obtain ⟨negative, magnitude, -, hx⟩ := Binary64.exists_ofFloat_eq_finite h
    exact Binary64.isFinite_of_ofFloat (Binary64.ofFloat_neg hx)

/-- **Literals are within these bounds**, since an integer without a sign is not negative. -/
theorem isBounded_of_ofLiteralChars? {cs : List Char} {v : Number}
    (h : ofLiteralChars? cs = some v) : v.IsBounded := by
  cases v with
  | integer n =>
    obtain ⟨-, htoInt⟩ := ofLiteralChars?_eq_some_integer_iff.mp h
    have hlt := Int64.toInt_lt n
    exact ⟨by omega, by omega⟩
  | float x =>
    obtain ⟨-, numeral, -, magnitude, -, hlt, rfl⟩ := ofLiteralChars?_eq_some_float_iff.mp h
    exact Binary64.isFinite_of_ofFloat (Binary64.ofFloat_toFloat numeral.negative hlt)

/-! ### Products with minus one -/

theorem neg_ne_least {v : Number} (h : v ≠ least) : -v ≠ least := by
  cases v with
  | integer n =>
    obtain ⟨m, hm⟩ := exists_integer?_neg h
    have hlt := Int64.toInt_lt n
    have htoInt := toInt_of_integer? hm
    rw [neg_integer hm]
    intro hleast
    obtain rfl := Number.integer.inj hleast
    have hmin : Int64.minValue.toInt = -0x8000000000000000 := by decide
    omega
  | float x => exact nofun

/-- **The opposite is the product with minus one**, unless there is none of its kind. -/
theorem apply_multiply_minusOne {v : Number} (h : v ≠ least) :
    apply .multiply (integer (-1)) v = .ok (-v) := by
  cases v with
  | integer n =>
    obtain ⟨m, hm⟩ := exists_integer?_neg h
    have hproduct : (-1 : Int64).toInt * n.toInt = -n.toInt := by
      rw [show (-1 : Int64).toInt = -1 from rfl, Int.neg_one_mul]
    rw [apply_integer, Operator.onInts, hproduct, neg_integer hm]
    show ofResult .multiply (-n.toInt) = .ok (integer m)
    rw [ofResult, hm]
  | float x =>
    rw [apply_float_right]
    exact congrArg (fun y => Except.ok (float y)) (Binary64.minusOne_mul x)

end Number

end Abacus
