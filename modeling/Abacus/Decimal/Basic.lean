/-!
# Decimals

A decimal is a whole number of some power of ten.  It is written out in full, without an exponent:
the point always stands there, with at least one digit on each side.

## Main definitions

* `Decimal` — the number `digits * 10 ^ exponent`.
* `Decimal.text` — its positional form.
-/

namespace Abacus

/-- The number `digits * 10 ^ exponent`. -/
structure Decimal where
  digits : Nat
  exponent : Int
  deriving DecidableEq, Repr

/-- The number that decimal digits spell. -/
def ofDigits (cs : List Char) : Nat := Nat.ofDigitChars 10 cs 0

/-- A number in decimal digits, filled up to `width` with zeros in front. -/
def paddedDigits (width n : Nat) : List Char := (Nat.toDigits 10 n).leftpad width '0'

namespace Decimal

/-- The characters of the positional form. -/
def chars (d : Decimal) : List Char :=
  match d.exponent with
  | .ofNat n => Nat.toDigits 10 (d.digits * Nat.pow 10 n) ++ ['.', '0']
  | .negSucc n =>
    let scale := Nat.pow 10 (n + 1)
    Nat.toDigits 10 (d.digits / scale) ++ '.' :: paddedDigits (n + 1) (d.digits % scale)

/-- The positional form: as many places after the point as the exponent asks for, and one zero
there if it asks for none. -/
def text (d : Decimal) : String := String.ofList d.chars

end Decimal

end Abacus
