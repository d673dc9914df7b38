import Abacus.Number.Arithmetic
import Abacus.Proofs.Binary64.Patterns
import Abacus.Proofs.Number.Literals
import Abacus.Token.Scan

/-!
# Numbers read back

A number is written as an optional minus sign and digits, with a point among them if it is a float.
The digits are a literal, and it stands for the number without its sign; turning the sign of that
again gives the number itself.  The least integer alone is different: its digits are no integer.

## Main definitions

* `Number.IsFinite` — the integers and the finite floats.
* `Number.isNegative`, `Number.digits` — the parts of the written form.
* `Number.unsigned` — the number that the digits stand for.
* `Number.least` — the least integer.

## Main results

* `Number.toList_text` — the written form in its parts.
* `Number.exists_digits_eq` — the digits are such characters as a number is read from.
* `Number.ofLiteralChars?_digits` — **the digits of a number are read as it without its sign**.
* `Number.neg_unsigned` — **and with its sign turned again it is the number**.
-/

namespace Abacus.Number

/-- An integer or a finite float. -/
def IsFinite : Number → Prop
  | integer _ => True
  | float x => x.isFinite = true

/-- Whether the written form begins with a minus sign. -/
def isNegative : Number → Bool
  | integer n => decide (n.toInt < 0)
  | float x =>
    match Binary64.ofFloat x with
    | .finite negative _ => negative
    | _ => false

/-- The written form behind its minus sign. -/
def digits : Number → List Char
  | integer n => Nat.toDigits 10 n.toInt.natAbs
  | float x =>
    match Binary64.ofFloat x with
    | .finite _ magnitude => (Binary64.shortestDecimal magnitude).chars
    | _ => []

/-- The number without its sign. -/
def unsigned (v : Number) : Number := if v.isNegative then -v else v

/-- The least integer, whose opposite is no integer. -/
def least : Number := integer Int64.minValue

/-! ### Signs -/

/-- Every other integer than the least has an opposite. -/
theorem exists_integer?_neg {n : Int64} (h : integer n ≠ least) :
    ∃ m, integer? (-n.toInt) = some m := by
  have hle := Int64.le_toInt n
  have hlt := Int64.toInt_lt n
  -- Only at this end there are more integers than at the other one.
  have hne : n.toInt ≠ -0x8000000000000000 := by
    intro hn
    exact h (congrArg integer (Int64.toInt_inj.mp hn))
  have hfits : FitsInteger (-n.toInt) := by
    unfold FitsInteger
    omega
  exact ⟨_, if_pos hfits⟩

theorem neg_integer {n m : Int64} (h : integer? (-n.toInt) = some m) : -integer n = integer m := by
  show neg (integer n) = integer m
  rw [neg, h]

/-- Without its sign an integer is its absolute value. -/
theorem unsigned_integer {n : Int64} (h : integer n ≠ least) :
    ∃ m : Int64, m.toInt = n.toInt.natAbs ∧ (integer n).unsigned = integer m := by
  by_cases hn : n.toInt < 0
  · obtain ⟨m, hm⟩ := exists_integer?_neg h
    refine ⟨m, ?_, ?_⟩
    · rw [toInt_of_integer? hm]
      omega
    · rw [unsigned, isNegative, decide_eq_true hn, if_pos rfl, neg_integer hm]
  · refine ⟨n, by omega, ?_⟩
    rw [unsigned, isNegative, decide_eq_false hn]
    rfl

/-! ### The parts of the written form -/

section Float

variable {x : Float} {negative : Bool} {magnitude : Nat}

theorem isNegative_float (h : Binary64.ofFloat x = .finite negative magnitude) :
    (float x).isNegative = negative := by
  rw [isNegative, h]

theorem digits_float (h : Binary64.ofFloat x = .finite negative magnitude) :
    (float x).digits = (Binary64.shortestDecimal magnitude).chars := by
  rw [digits, h]

/-- Without its sign a float keeps its magnitude. -/
theorem unsigned_float (h : Binary64.ofFloat x = .finite negative magnitude) :
    ∃ y, (float x).unsigned = float y ∧ Binary64.ofFloat y = .finite false magnitude := by
  rw [unsigned, isNegative_float h]
  cases negative with
  | false => exact ⟨x, rfl, h⟩
  | true => exact ⟨x.neg, rfl, Binary64.ofFloat_neg h⟩

end Float

theorem toList_text {v : Number} (h : v.IsFinite) :
    v.text.toList = (if v.isNegative then ['-'] else []) ++ v.digits := by
  cases v with
  | integer n =>
    rw [text, Int.repr_eq_if, isNegative, digits]
    -- The standard library writes the sign of an integer, the renderer that of a float.
    by_cases hn : n.toInt < 0
    · have habs : (-n.toInt).toNat = n.toInt.natAbs := by omega
      rw [if_neg (by omega), decide_eq_true hn, habs, String.toList_append, Nat.toList_repr]
      rfl
    · have habs : n.toInt.toNat = n.toInt.natAbs := by omega
      rw [if_pos (by omega), decide_eq_false hn, habs, Nat.toList_repr]
      rfl
  | float x =>
    obtain ⟨negative, magnitude, -, hx⟩ := Binary64.exists_ofFloat_eq_finite h
    rw [isNegative_float hx, digits_float hx, text, hx, Binary64.text, String.toList_append,
      Decimal.text, String.toList_ofList]
    cases negative <;> rfl

theorem isNumberPart_of_isDigit {c : Char} (h : c.isDigit = true) : isNumberPart c = true := by
  simp [isNumberPart, isNamePart, h]

/-- The digits begin with a digit and are all part of a number. -/
theorem exists_digits_eq {v : Number} (h : v.IsFinite) :
    ∃ c cs, v.digits = c :: cs ∧ c.isDigit = true ∧ ∀ d ∈ v.digits, isNumberPart d = true := by
  cases v with
  | integer n =>
    obtain ⟨c, cs, hdigits⟩ := List.exists_cons_of_ne_nil (@Nat.toDigits_ne_nil n.toInt.natAbs 10)
    have hall : ∀ d ∈ (integer n).digits, d.isDigit = true := fun d => isDigit_of_mem_toDigits
    exact ⟨c, cs, hdigits, hall c (by rw [digits, hdigits]; exact List.mem_cons_self),
      fun d hd => isNumberPart_of_isDigit (hall d hd)⟩
  | float x =>
    obtain ⟨negative, magnitude, -, hx⟩ := Binary64.exists_ofFloat_eq_finite h
    obtain ⟨whole, fraction, hchars, hne, hwhole, hfraction, -⟩ :=
      (Binary64.shortestDecimal magnitude).exists_chars_eq
    -- A digit stands in front of the point, so a float begins like an integer.
    obtain ⟨c, cs, rfl⟩ := List.exists_cons_of_ne_nil hne
    rw [digits_float hx, hchars]
    refine ⟨c, cs ++ '.' :: fraction, rfl, hwhole c List.mem_cons_self, ?_⟩
    intro d hd
    rcases List.mem_append.mp hd with hd | hd
    · exact isNumberPart_of_isDigit (hwhole d hd)
    · rcases List.mem_cons.mp hd with rfl | hd
      · rfl
      · exact isNumberPart_of_isDigit (hfraction d hd)

/-! ### Reading back -/

/-- Digits alone are an integer, or nothing. -/
theorem ofLiteralChars?_toDigits (n : Nat) :
    ofLiteralChars? (Nat.toDigits 10 n) = (integer? n).map integer := by
  have hdigits : IsDigits (Nat.toDigits 10 n) :=
    ⟨Nat.toDigits_ne_nil, fun c => isDigit_of_mem_toDigits⟩
  rw [ofLiteralChars?_of_isDigits hdigits, ofDigits_toDigits]

/-- The positional form of a magnitude is a float of it. -/
theorem ofLiteralChars?_chars {d : Decimal} {magnitude : Nat} (h : d.magnitude? = some magnitude) :
    ofLiteralChars? d.chars = some (float (Binary64.finite false magnitude).toFloat) := by
  obtain ⟨whole, fraction, hchars, -⟩ := d.exists_chars_eq
  -- The point keeps the text from being taken for an integer.
  have hpoint : ¬ IsDigits d.chars := by
    rintro ⟨-, hdigits⟩
    exact absurd (hdigits '.' (by simp [hchars])) (by decide)
  obtain ⟨numeral, hnumeral, hnegative, hmagnitude⟩ := Decimal.exists_ofChars?_chars h
  rw [ofLiteralChars?_of_not_isDigits hpoint, hnumeral]
  simp only [Option.bind_some, Numeral.float?, hmagnitude, hnegative, Option.map_some]

/-- **The digits of a number are read as the number without its sign.** -/
theorem ofLiteralChars?_digits {v : Number} (h : v.IsFinite) (hv : v ≠ least) :
    ofLiteralChars? v.digits = some v.unsigned := by
  cases v with
  | integer n =>
    obtain ⟨m, hm, hunsigned⟩ := unsigned_integer hv
    rw [digits, ofLiteralChars?_toDigits, ← hm, integer?_toInt, hunsigned]
    rfl
  | float x =>
    obtain ⟨negative, magnitude, hlt, hx⟩ := Binary64.exists_ofFloat_eq_finite h
    obtain ⟨y, hunsigned, hy⟩ := unsigned_float hx
    -- The shortest decimal that reads back does read back, whatever it is.
    rw [digits_float hx, hunsigned,
      ofLiteralChars?_chars (Binary64.magnitude?_shortestDecimal hlt)]
    have hsame := Binary64.eq_of_ofFloat_eq (Binary64.ofFloat_toFloat false hlt) hy
    rw [hsame]

/-- The digits of the least integer are no integer, and no float either. -/
theorem ofLiteralChars?_digits_least : ofLiteralChars? least.digits = none := by
  have hdigits : least.digits = Nat.toDigits 10 9223372036854775808 := rfl
  rw [hdigits, ofLiteralChars?_toDigits]
  rfl

/-- **Turning the sign of a negative number twice gives the number.** -/
theorem neg_unsigned {v : Number} (h : v.IsFinite) (hv : v ≠ least)
    (hnegative : v.isNegative = true) : -v.unsigned = v := by
  rw [unsigned, hnegative, if_pos rfl]
  cases v with
  | integer n =>
    obtain ⟨m, hm⟩ := exists_integer?_neg hv
    have hn : integer? (-m.toInt) = some n := by
      rw [toInt_of_integer? hm, Int.neg_neg, integer?_toInt]
    rw [neg_integer hm, neg_integer hn]
  | float x =>
    obtain ⟨negative, magnitude, -, hx⟩ := Binary64.exists_ofFloat_eq_finite h
    -- To turn the sign twice gives the same pattern.
    have hneg := Binary64.ofFloat_neg (Binary64.ofFloat_neg hx)
    rw [Bool.not_not] at hneg
    exact congrArg float (Binary64.eq_of_ofFloat_eq hneg hx)

theorem unsigned_of_not_isNegative {v : Number} (h : v.isNegative = false) : v.unsigned = v := by
  rw [unsigned, h]
  rfl

end Abacus.Number
