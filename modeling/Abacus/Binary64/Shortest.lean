import Abacus.Binary64.Reading

/-!
# The shortest decimal of a magnitude

A magnitude is written with the fewest digits that read back as the same magnitude; of two such
decimals with equally many digits it is the nearer one, and the larger one if both are equally near.

The exact decimal expansion of a magnitude is cut after one digit less than its first, then after
its first, its second, and so on.  Where the expansion is cut, its two neighbours are the number
that is left and the next one; if any decimal with so many digits reads back, one of these two does.

## Main definitions

* `Binary64.exactDecimal` — the exact expansion.
* `Binary64.shortestDecimal` — the decimal that is written.
* `Binary64.text` — the written form of a float.
-/

namespace Abacus.Binary64

/-- A magnitude exactly: a unit is `5 ^ 1074 / 10 ^ 1074`. -/
def exactDecimal (magnitude : Nat) : Decimal :=
  { digits := units magnitude * Nat.pow 5 1074, exponent := -1074 }

/-- The decimal reads back as the given magnitude. -/
def readsBack (magnitude : Nat) (d : Decimal) : Bool := d.magnitude? == some magnitude

/-- Of the two neighbours of a decimal with its last `drop` digits cut off, the one to write the
magnitude with: the one that reads back, or the nearer of two, or none. -/
def neighbour? (magnitude : Nat) (exact : Decimal) (drop : Nat) : Option Decimal :=
  let scale := Nat.pow 10 drop
  let lower : Decimal := ⟨exact.digits / scale, exact.exponent + drop⟩
  let upper : Decimal := ⟨exact.digits / scale + 1, exact.exponent + drop⟩
  let lowerIsNearer := decide (2 * (exact.digits % scale) < scale)
  if readsBack magnitude lower && (lowerIsNearer || !readsBack magnitude upper) then some lower
  else if readsBack magnitude upper then some upper
  else none

/-- The first neighbour to be found when ever fewer digits are cut off, starting with `drop`. -/
def shortestFrom (magnitude : Nat) (exact : Decimal) : Nat → Decimal
  | 0 => exact
  | drop + 1 =>
    match neighbour? magnitude exact (drop + 1) with
    | some d => d
    | none => shortestFrom magnitude exact drop

/-- The decimal that a finite magnitude is written as. -/
def shortestDecimal (magnitude : Nat) : Decimal :=
  if magnitude = 0 then ⟨0, 0⟩
  else
    let exact := exactDecimal magnitude
    shortestFrom magnitude exact (Nat.toDigits 10 exact.digits).length

/-- The written form of a float. -/
def text : Binary64 → String
  | nan => "NaN"
  | infinite negative => (if negative then "-" else "") ++ "inf"
  | finite negative magnitude => (if negative then "-" else "") ++ (shortestDecimal magnitude).text

-- Digits are never put into an exponent, and a power of ten can be the shortest neighbour above.
example : (ofFloat 1e23).text = "100000000000000000000000.0" := by decide +kernel

-- Two neighbours with seventeen digits are equally near to this power of two.
example : (ofFloat 2.98023223876953125e-8).text = "0.000000029802322387695313" := by decide +kernel

example : (ofFloat (-0.0)).text = "-0.0" := by decide +kernel

end Abacus.Binary64
