import Abacus.Number.Literal
import Abacus.Proofs.Decimal.Magnitudes

/-!
# The texts that are literals

A text of digits alone is an integer literal if it spells an integer of 64 bits, and any other text
is a float literal if it is a numeral of finite value; nothing else is a literal.

## Main definitions

* `IsIntegerLiteral`, `IsFloatLiteral` — the texts that are literals.

## Main results

* `Number.ofLiteralChars?_of_isDigits`, `Number.ofLiteralChars?_of_not_isDigits` — digits are never
  a float, and nothing else is an integer.
* `Number.ofLiteralChars?_eq_some_integer_iff`, `Number.ofLiteralChars?_eq_some_float_iff` — **the
  literals of either kind**, with their values.
* `Number.exists_value_iff` — nothing else is a literal.
-/

namespace Abacus

open Binary64

/-- Digits that spell an integer of 64 bits. -/
def IsIntegerLiteral (cs : List Char) : Prop := IsDigits cs ∧ ofDigits cs ≤ 0x7FFFFFFFFFFFFFFF

/-- A numeral of finite value, but not digits alone. -/
def IsFloatLiteral (cs : List Char) : Prop :=
  ¬ IsDigits cs ∧ ∃ numeral : Numeral, numeral.IsSpelled cs ∧ numeral.IsFinite

namespace Number

variable {cs : List Char} {i : Int64} {x : Float}

/-- Digits alone are an integer or nothing. -/
theorem ofLiteralChars?_of_isDigits (h : IsDigits cs) :
    ofLiteralChars? cs = (integer? (ofDigits cs)).map integer := by
  have hread := Numeral.readDigits?_eq_some_iff.mpr ⟨h, rfl⟩
  rw [ofLiteralChars?, if_pos (List.all_eq_true.mpr h.2), hread]
  rfl

/-- Anything else is a float or nothing. -/
theorem ofLiteralChars?_of_not_isDigits (h : ¬ IsDigits cs) :
    ofLiteralChars? cs = (Numeral.ofChars? cs).bind fun numeral => numeral.float?.map float := by
  cases cs with
  | nil => rfl
  | cons c cs =>
    have hall : ¬ (c :: cs).all Char.isDigit = true :=
      fun hall => h ⟨List.cons_ne_nil c cs, List.all_eq_true.mp hall⟩
    rw [ofLiteralChars?, if_neg hall]

/-- **The integer literals.** -/
theorem ofLiteralChars?_eq_some_integer_iff : ofLiteralChars? cs = some (integer i) ↔
    IsIntegerLiteral cs ∧ i.toInt = ofDigits cs := by
  -- Digits alone make an integer or nothing; anything else is read as a float.
  by_cases hdigits : IsDigits cs
  · rw [ofLiteralChars?_of_isDigits hdigits, Option.map_eq_some_iff]
    constructor
    · rintro ⟨j, hj, hi⟩
      obtain rfl := Number.integer.inj hi
      have htoInt := toInt_of_integer? hj
      have hlt := Int64.toInt_lt j
      exact ⟨⟨hdigits, by omega⟩, htoInt⟩
    · rintro ⟨-, htoInt⟩
      exact ⟨i, by rw [← htoInt, integer?_toInt], rfl⟩
  · rw [ofLiteralChars?_of_not_isDigits hdigits]
    refine iff_of_false (fun h => ?_) fun h => hdigits h.1.1
    obtain ⟨numeral, -, h⟩ := Option.bind_eq_some_iff.mp h
    obtain ⟨x, -, hx⟩ := Option.map_eq_some_iff.mp h
    cases hx

/-- **The float literals.** -/
theorem ofLiteralChars?_eq_some_float_iff : ofLiteralChars? cs = some (float x) ↔
    ¬ IsDigits cs ∧ ∃ numeral : Numeral, numeral.IsSpelled cs ∧
      ∃ magnitude, RoundsTo numeral.value magnitude ∧ magnitude < infinity ∧
        x = (Binary64.finite numeral.negative magnitude).toFloat := by
  by_cases hdigits : IsDigits cs
  · rw [ofLiteralChars?_of_isDigits hdigits]
    refine iff_of_false (fun h => ?_) fun h => h.1 hdigits
    obtain ⟨j, -, hj⟩ := Option.map_eq_some_iff.mp h
    cases hj
  · rw [ofLiteralChars?_of_not_isDigits hdigits, Option.bind_eq_some_iff, and_iff_right hdigits]
    constructor
    · rintro ⟨numeral, hnumeral, h⟩
      obtain ⟨y, hy, hx⟩ := Option.map_eq_some_iff.mp h
      obtain rfl := Number.float.inj hx
      -- Spelling and rounding are two questions, each with its own equivalence.
      exact ⟨numeral, Numeral.ofChars?_eq_some_iff.mp hnumeral, Numeral.float?_eq_some_iff.mp hy⟩
    · rintro ⟨numeral, hspelled, hx⟩
      refine ⟨numeral, Numeral.ofChars?_eq_some_iff.mpr hspelled, ?_⟩
      rw [Numeral.float?_eq_some_iff.mpr hx, Option.map_some]

theorem exists_integer_iff :
    (∃ i, ofLiteralChars? cs = some (integer i)) ↔ IsIntegerLiteral cs := by
  constructor
  · rintro ⟨i, hi⟩
    exact (ofLiteralChars?_eq_some_integer_iff.mp hi).1
  · intro h
    have hfits : FitsInteger (ofDigits cs) := ⟨by omega, Int.ofNat_le.mpr h.2⟩
    have hinteger : integer? (ofDigits cs) = some (Int64.ofInt (ofDigits cs)) := if_pos hfits
    exact ⟨_, ofLiteralChars?_eq_some_integer_iff.mpr ⟨h, toInt_of_integer? hinteger⟩⟩

theorem exists_float_iff : (∃ x, ofLiteralChars? cs = some (float x)) ↔ IsFloatLiteral cs := by
  simp only [ofLiteralChars?_eq_some_float_iff, IsFloatLiteral, Numeral.IsFinite]
  constructor
  · rintro ⟨x, hdigits, numeral, hspelled, magnitude, hrounds, hlt, -⟩
    exact ⟨hdigits, numeral, hspelled, magnitude, hrounds, hlt⟩
  · rintro ⟨hdigits, numeral, hspelled, magnitude, hrounds, hlt⟩
    exact ⟨_, hdigits, numeral, hspelled, magnitude, hrounds, hlt, rfl⟩

/-- **Nothing else is a literal.** -/
theorem exists_value_iff :
    (∃ value, ofLiteralChars? cs = some value) ↔ IsIntegerLiteral cs ∨ IsFloatLiteral cs := by
  rw [← exists_integer_iff, ← exists_float_iff]
  constructor
  · rintro ⟨value, hvalue⟩
    cases value with
    | integer i => exact .inl ⟨i, hvalue⟩
    | float x => exact .inr ⟨x, hvalue⟩
  · rintro (⟨i, hi⟩ | ⟨x, hx⟩)
    · exact ⟨_, hi⟩
    · exact ⟨_, hx⟩

end Number

end Abacus
