import Abacus.Decimal.Basic

/-!
# Numerals

A numeral is the written form of a decimal: an optional sign, digits with at most one point among,
before or after them, and an optional exponent, which has a sign of its own.

    numeral  := sign? (digits | digits '.' digits? | '.' digits) exponent?
    exponent := ('e' | 'E') sign? digits
    sign     := '+' | '-'

## Main definitions

* `Numeral` — the parts of a numeral.
* `Numeral.ofChars?` — reads a whole text as a numeral.
* `Numeral.decimal` — the number it spells, sign apart.
-/

namespace Abacus

/-- The parts of a numeral. -/
structure Numeral where
  negative : Bool
  /-- The digits before the point. -/
  whole : List Char
  /-- The digits after the point. -/
  fraction : List Char
  exponent : Int
  deriving DecidableEq, Repr

namespace Numeral

/-- Reads an optional sign: whether it is a minus, and what follows. -/
def readSign : List Char → Bool × List Char
  | '-' :: cs => (true, cs)
  | '+' :: cs => (false, cs)
  | cs => (false, cs)

/-- Reads an optional point and the digits behind it: these digits, and what follows. -/
def readFraction : List Char → List Char × List Char
  | '.' :: cs => (cs.takeWhile Char.isDigit, cs.dropWhile Char.isDigit)
  | cs => ([], cs)

/-- Reads a text that is nothing but digits, one or more. -/
def readDigits? (cs : List Char) : Option Nat :=
  if cs.isEmpty then none else if cs.all Char.isDigit then some (ofDigits cs) else none

/-- Reads an optional exponent, which has to reach to the end of the text. -/
def readExponent? : List Char → Option Int
  | [] => some 0
  | c :: cs =>
    if c = 'e' ∨ c = 'E' then
      let (negative, digits) := readSign cs
      (readDigits? digits).map fun n => if negative then -(n : Int) else n
    else none

/-- Reads a whole text as a numeral. -/
def ofChars? (cs : List Char) : Option Numeral :=
  let (negative, cs) := readSign cs
  let whole := cs.takeWhile Char.isDigit
  let (fraction, cs) := readFraction (cs.dropWhile Char.isDigit)
  if whole.isEmpty && fraction.isEmpty then none
  else (readExponent? cs).map fun exponent => { negative, whole, fraction, exponent }

/-- The number that a numeral spells, sign apart. -/
def decimal (numeral : Numeral) : Decimal :=
  { digits := ofDigits (numeral.whole ++ numeral.fraction)
    exponent := numeral.exponent - numeral.fraction.length }

end Numeral

end Abacus
