import Abacus.Number.Basic

/-!
# Literals

A text of digits alone is an integer and has to be one of 64 bits; it is never taken for a float.
Any other text is a float if it is a numeral of finite value.

## Main definitions

* `Number.ofLiteral?` — the number that a text stands for.
-/

namespace Abacus

/-- The integers of 64 bits. -/
def FitsInteger (n : Int) : Prop := -0x8000000000000000 ≤ n ∧ n ≤ 0x7FFFFFFFFFFFFFFF

instance (n : Int) : Decidable (FitsInteger n) := inferInstanceAs (Decidable (_ ∧ _))

/-- A whole number as an integer of 64 bits, if it is one. -/
def integer? (n : Int) : Option Int64 := if FitsInteger n then some (Int64.ofInt n) else none

theorem toInt_of_integer? {n : Int} {i : Int64} (h : integer? n = some i) : i.toInt = n := by
  unfold integer? at h
  split at h
  · next hn =>
    obtain rfl := Option.some.inj h
    exact Int64.toInt_ofInt_of_le hn.1 (Int.lt_of_le_sub_one hn.2)
  · exact nomatch h

theorem integer?_toInt (i : Int64) : integer? i.toInt = some i := by
  have hi : FitsInteger i.toInt := ⟨Int64.le_toInt i, Int.le_sub_one_of_lt (Int64.toInt_lt i)⟩
  rw [integer?, if_pos hi, Int64.ofInt_toInt]

/-- The number that a list of characters stands for. -/
def Number.ofLiteralChars? (cs : List Char) : Option Number :=
  if cs.all Char.isDigit then
    (Numeral.readDigits? cs).bind fun n => (integer? n).map .integer
  else
    (Numeral.ofChars? cs).bind fun numeral => numeral.float?.map .float

/-- The number that a text stands for. -/
def Number.ofLiteral? (text : String) : Option Number := ofLiteralChars? text.toList

end Abacus
