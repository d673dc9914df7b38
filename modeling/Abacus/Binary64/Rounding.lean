import Abacus.Binary64.Basic

/-!
# Rounding to binary64

A ratio of natural numbers is rounded to the nearest magnitude, and half way between two it goes to
the one with the even last bit.  With more than 53 bits only every second, fourth, eighth, … number
of units is a magnitude, so the ratio is measured in steps of so many units that its whole part has
no more than 53 bits.

## Main definitions

* `roundHalfEven n d` — the whole number nearest to `n / d`.
* `Binary64.nearest n d` — the pattern of the magnitude nearest to `n / d`.
* `Binary64.ofInt` — the float nearest to a whole number.
-/

namespace Abacus

/-- The whole number nearest to `n / d`, and the even one of two that are equally near. -/
def roundHalfEven (n d : Nat) : Nat :=
  if 2 * (n % d) < d then n / d
  else if d < 2 * (n % d) then n / d + 1
  else n / d + n / d % 2

theorem roundHalfEven_of_dvd {n d : Nat} (hd : 0 < d) (h : d ∣ n) : roundHalfEven n d = n / d := by
  simp [roundHalfEven, Nat.mod_eq_zero_of_dvd h, hd]

namespace Binary64

/-- The pattern of the magnitude nearest to `n / d`, at least `infinity` if that magnitude is too
large to be finite.  A step is `1 <<< shift` units.  A whole part of 53 bits has the leading bit
that the pattern leaves out, and carries it into the exponent field: hence the field's start at
`shift`, one less than its value.  A rounding up to 54 bits carries once more, as it should. -/
def nearest (n d : Nat) : Nat :=
  let scaled := n * unitsPerOne
  let shift := (scaled / d).log2 - 52
  shift * exponentBit + roundHalfEven scaled (d <<< shift)

/-- A pattern as a finite magnitude, unless it is past them. -/
def finite? (pattern : Nat) : Option Nat :=
  if pattern < infinity then some pattern else none

/-- The float nearest to a whole number of fewer than 1024 bits. -/
def ofInt (n : Int) : Binary64 :=
  finite (decide (n < 0)) (nearest n.natAbs 1)

end Binary64

end Abacus
