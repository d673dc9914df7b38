import Abacus.Binary64.Rounding
import Abacus.Decimal.Numeral

/-!
# Reading decimals

A decimal stands for the magnitude nearest to it, and for none if it is too large.  Its exponent
may be of any size, so a power of ten is only formed when the answer hangs on it: from `10 ^ 309` on
every number is too large, and below half a unit every number is nearest to zero.

## Main definitions

* `Decimal.magnitude?` — the magnitude nearest to a decimal.
* `Numeral.float?` — the float that a numeral stands for.
-/

namespace Abacus

/-- The magnitude nearest to a decimal, if it is finite.  A number of `b` bits is less than
`2 ^ b`, and `10 ^ k` is at least `2 ^ (3 * k)`; so if `b + 1076` is at most `3 * k`, the quotient
is less than half a unit. -/
def Decimal.magnitude? (d : Decimal) : Option Nat :=
  if d.digits = 0 then some 0
  else
    match d.exponent with
    | .ofNat n =>
      if 309 ≤ n then none else Binary64.finite? (Binary64.nearest (d.digits * Nat.pow 10 n) 1)
    | .negSucc n =>
      if d.digits.log2 + 1 + 1076 ≤ 3 * (n + 1) then some 0
      else Binary64.finite? (Binary64.nearest d.digits (Nat.pow 10 (n + 1)))

/-- The float that a numeral stands for, if its magnitude is finite; zero keeps its sign. -/
def Numeral.float? (numeral : Numeral) : Option Float :=
  numeral.decimal.magnitude?.map fun magnitude =>
    (Binary64.finite numeral.negative magnitude).toFloat

end Abacus
