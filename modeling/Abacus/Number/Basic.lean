import Abacus.Binary64.Shortest

/-!
# Numbers

A number is a 64-bit integer or a float.  The two kinds stay apart: an integer is never equal to a
float, and becomes one only where it meets one.  To compare across the kinds there is `sameValue`.

## Main definitions

* `Number` — the two kinds.
* `Number.toFloat` — a number as a float, rounded if need be.
* `Number.sameValue` — equality after that conversion, unless both are integers.
* `Number.text` — the written form, by which the kinds can be told apart.
-/

namespace Abacus

/-- An integer of 64 bits or a float. -/
inductive Number
  | integer (value : Int64)
  | float (value : Float)
  deriving Repr

/-- The float nearest to an integer. -/
def floatOfInteger (n : Int64) : Float := (Binary64.ofInt n.toInt).toFloat

namespace Number

/-- Numbers are equal if they are of one kind and equal in it; so what is not a number differs from
itself, and the two zeros are equal. -/
def beq : Number → Number → Bool
  | integer a, integer b => a == b
  | float a, float b => Float.beq a b
  | _, _ => false

instance : BEq Number := ⟨beq⟩

instance : Coe Int64 Number := ⟨integer⟩

instance : Coe Int32 Number := ⟨fun n => integer n.toInt64⟩

instance : Coe Float Number := ⟨float⟩

/-- Whether the number is an integer. -/
def isInteger : Number → Bool
  | integer _ => true
  | float _ => false

/-- A number as a float; an integer becomes the nearest one. -/
def toFloat : Number → Float
  | integer n => floatOfInteger n
  | float x => x

/-- Equality by value: integers among themselves exactly, all else as floats. -/
def sameValue : Number → Number → Bool
  | integer a, integer b => a == b
  | a, b => Float.beq a.toFloat b.toFloat

/-- The written form: an integer has no point, and a finite float has one. -/
def text : Number → String
  | integer n => n.toInt.repr
  | float x => (Binary64.ofFloat x).text

end Number

end Abacus
