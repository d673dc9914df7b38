import Abacus.Proofs.Binary64.Nearest
import Abacus.Proofs.Decimal.PositionalForm

/-!
# The magnitudes of decimals

A decimal is read as the magnitude that it is rounded to, if that is finite.  Powers of ten that are
too large to be formed do not matter: the decimal is then past all finite magnitudes, or less than
half of the least one.

## Main definitions

* `Decimal.value`, `Numeral.value` — the number that is spelled, sign apart.
* `Numeral.IsFinite` — this number is rounded to a finite magnitude.

## Main results

* `Decimal.magnitude?_eq_some_iff` — **a decimal is read as what it is rounded to**.
* `Numeral.value_decimal` — a numeral spells its decimal.
* `Numeral.isFinite_iff` — the numerals of finite value.
* `Numeral.float?_eq_some_iff` — the float that a numeral stands for.
-/

namespace Abacus

open Binary64

/-- The number that a decimal is. -/
def Decimal.value (d : Decimal) : ℚ := d.digits * 10 ^ d.exponent

/-- The number that a numeral spells, sign apart. -/
def Numeral.value (numeral : Numeral) : ℚ :=
  (ofDigits numeral.whole + ofDigits numeral.fraction / 10 ^ numeral.fraction.length)
    * 10 ^ numeral.exponent

namespace Decimal

variable {d : Decimal} {n magnitude : Nat} {q : ℚ}

/-! ### Numbers that are too small -/

/-- Less than half a unit is nearest to zero. -/
theorem roundsTo_zero (h : 2 * q < Binary64.value 1) : RoundsTo q 0 := by
  refine roundsTo_iff.mpr ⟨fun other hpos => ?_, fun other hlt => absurd hlt (Nat.not_lt_zero _)⟩
  have hle : Binary64.value 1 ≤ Binary64.value other := value_strictMono.monotone hpos
  rw [value_zero, zero_add]
  exact .inl (lt_of_lt_of_le h hle)

/-- With too few digits, a quotient by a power of ten is less than half of a power of two. -/
theorem two_mul_digits_lt {digits k : Nat} (h : digits.log2 + 1 + (k + 1) ≤ 3 * n) :
    2 * digits * 2 ^ k < 10 ^ n := by
  have hdigits : digits < 2 ^ (digits.log2 + 1) := Nat.lt_log2_self
  calc 2 * digits * 2 ^ k
      = digits * 2 ^ (k + 1) := by rw [Nat.mul_comm 2, Nat.mul_assoc, ← Nat.pow_succ']
    _ < 2 ^ (digits.log2 + 1) * 2 ^ (k + 1) :=
        Nat.mul_lt_mul_of_pos_right hdigits (Nat.two_pow_pos _)
    _ = 2 ^ (digits.log2 + 1 + (k + 1)) := (Nat.pow_add ..).symm
    _ ≤ 2 ^ (3 * n) := Nat.pow_le_pow_right (by decide) h
    _ = 8 ^ n := Nat.pow_mul ..
    _ ≤ 10 ^ n := Nat.pow_le_pow_left (by decide) _

theorem roundsTo_zero_of_log2 {digits : Nat} (h : digits.log2 + 1 + 1076 ≤ 3 * n) :
    RoundsTo (digits / (10 ^ n : ℕ)) 0 := by
  have hunits : unitsPerOne = 2 ^ 1074 := by decide +kernel
  have hpos : (0 : ℚ) < unitsPerOne := Nat.cast_pos.mpr unitsPerOne_pos
  have hten : (0 : ℚ) < (10 ^ n : ℕ) := Nat.cast_pos.mpr (Nat.pow_pos (by decide))
  -- The comparison is made in whole numbers, where the power of two need not be computed.
  have hlt : 2 * digits * unitsPerOne < 10 ^ n := by
    rw [hunits]
    exact two_mul_digits_lt (Nat.le_trans (Nat.add_le_add_left (by decide) _) h)
  have hlt' : ((2 * digits * unitsPerOne : ℕ) : ℚ) < (10 ^ n : ℕ) := Nat.cast_lt.mpr hlt
  have hone : units 1 = 1 := rfl
  refine roundsTo_zero ?_
  rw [Binary64.value, hone, Nat.cast_one, ← mul_div_assoc, div_lt_div_iff₀ hten hpos, one_mul]
  rwa [Nat.cast_mul, Nat.cast_mul] at hlt'

/-! ### Numbers that are too large -/

theorem overflowBound_le_of_le {digits : Nat} (hdigits : digits ≠ 0) (h : 309 ≤ n) :
    overflowBound ≤ (digits * 10 ^ n : ℕ) := by
  have hpower : 2 ^ 1024 ≤ digits * 10 ^ n :=
    calc 2 ^ 1024
        ≤ 10 ^ 309 := by decide +kernel
      _ ≤ 10 ^ n := Nat.pow_le_pow_right (by decide) h
      _ ≤ digits * 10 ^ n := Nat.le_mul_of_pos_left _ (Nat.pos_of_ne_zero hdigits)
  have hpower' : ((2 ^ 1024 : ℕ) : ℚ) ≤ (digits * 10 ^ n : ℕ) := Nat.cast_le.mpr hpower
  rw [Nat.cast_pow, Nat.cast_ofNat] at hpower'
  exact (sub_le_self _ (by positivity)).trans hpower'

/-! ### All numbers -/

/-- What is rounded to a finite magnitude is rounded to this one only. -/
theorem some_eq_some_iff_roundsTo {rounded : Nat} (h : RoundsTo q rounded)
    (hfinite : rounded < infinity) :
    some rounded = some magnitude ↔ RoundsTo q magnitude ∧ magnitude < infinity := by
  rw [Option.some_inj]
  constructor
  · rintro rfl
    exact ⟨h, hfinite⟩
  · rintro ⟨h', -⟩
    exact h.unique h'

theorem finite?_nearest_eq_some_iff {digits scale : Nat} (hscale : 0 < scale) :
    finite? (nearest digits scale) = some magnitude ↔
      RoundsTo (digits / scale) magnitude ∧ magnitude < infinity := by
  have hrounds : RoundsTo (digits / scale) (nearest digits scale) := roundsTo_nearest hscale
  by_cases hfinite : nearest digits scale < infinity
  · rw [finite?_of_lt hfinite]
    exact some_eq_some_iff_roundsTo hrounds hfinite
  · rw [finite?, if_neg hfinite]
    refine iff_of_false nofun ?_
    rintro ⟨hmagnitude, hlt⟩
    exact hfinite (hrounds.unique hmagnitude ▸ hlt)

/-- **A decimal is read as the magnitude that it is rounded to**, if that is finite. -/
theorem magnitude?_eq_some_iff :
    d.magnitude? = some magnitude ↔ RoundsTo d.value magnitude ∧ magnitude < infinity := by
  obtain ⟨digits, exponent⟩ := d
  unfold magnitude? Decimal.value
  dsimp only
  -- The cases are those of the definition: no digits, an exponent that is too large or too small to
  -- need any rounding, and all else.
  by_cases hzero : digits = 0
  · subst hzero
    have hpos : 2 * (0 : ℚ) < Binary64.value 1 := by
      have := value_strictMono (Nat.lt_succ_self 0)
      rwa [value_zero, ← mul_zero 2] at this
    rw [if_pos rfl, Nat.cast_zero, zero_mul]
    exact some_eq_some_iff_roundsTo (roundsTo_zero hpos) (by decide)
  · rw [if_neg hzero]
    cases exponent with
    | ofNat n =>
      have hvalue : (digits : ℚ) * 10 ^ (Int.ofNat n) = (digits * 10 ^ n : ℕ) / (1 : ℕ) := by
        rw [Int.ofNat_eq_natCast, zpow_natCast]
        push_cast
        rw [div_one]
      rw [hvalue]
      dsimp only
      split
      · next hlarge =>
        -- Refused at once as too large: no finite magnitude is near.
        refine iff_of_false nofun ?_
        rintro ⟨hrounds, hlt⟩
        rw [Nat.cast_one, div_one] at hrounds
        exact absurd (hrounds.lt_infinity_iff.mp hlt)
          (not_lt.mpr (overflowBound_le_of_le hzero hlarge))
      · exact finite?_nearest_eq_some_iff (by decide)
    | negSucc n =>
      have hvalue : (digits : ℚ) * 10 ^ (Int.negSucc n) = digits / (10 ^ (n + 1) : ℕ) := by
        rw [zpow_negSucc, Nat.cast_pow, Nat.cast_ofNat, div_eq_mul_inv]
      rw [hvalue]
      dsimp only
      split
      · -- Taken for zero at once as too small.
        next hsmall => exact some_eq_some_iff_roundsTo (roundsTo_zero_of_log2 hsmall) (by decide)
      · exact finite?_nearest_eq_some_iff (Nat.pow_pos (by decide))

end Decimal

namespace Numeral

/-- **A numeral spells its decimal.** -/
theorem value_decimal (numeral : Numeral) : numeral.decimal.value = numeral.value := by
  have hten : (10 : ℚ) ≠ 0 := by norm_num
  rw [decimal, Decimal.value, Numeral.value, ofDigits_append, zpow_sub₀ hten, zpow_natCast]
  push_cast
  field_simp

/-- The number of the numeral is rounded to a finite magnitude. -/
def IsFinite (numeral : Numeral) : Prop :=
  ∃ magnitude, RoundsTo numeral.value magnitude ∧ magnitude < infinity

/-- **The numerals of finite value** are those below the middle between the greatest finite
magnitude and what would follow it. -/
theorem isFinite_iff {numeral : Numeral} : numeral.IsFinite ↔ numeral.value < overflowBound := by
  have hnonneg : 0 ≤ numeral.value := by
    unfold value
    positivity
  constructor
  · rintro ⟨magnitude, hrounds, hlt⟩
    exact hrounds.lt_infinity_iff.mp hlt
  · intro hlt
    -- Every number is rounded to some magnitude; the bound only says that it is finite.
    obtain ⟨magnitude, hrounds⟩ := exists_roundsTo hnonneg
    exact ⟨magnitude, hrounds, hrounds.lt_infinity_iff.mpr hlt⟩

/-- The float that a numeral stands for has the sign of the numeral, and the magnitude that its
number is rounded to. -/
theorem float?_eq_some_iff {numeral : Numeral} {x : Float} : numeral.float? = some x ↔
    ∃ magnitude, RoundsTo numeral.value magnitude ∧ magnitude < infinity ∧
      x = (Binary64.finite numeral.negative magnitude).toFloat := by
  rw [float?, Option.map_eq_some_iff]
  constructor
  · rintro ⟨magnitude, hmagnitude, rfl⟩
    rw [Decimal.magnitude?_eq_some_iff, value_decimal] at hmagnitude
    exact ⟨magnitude, hmagnitude.1, hmagnitude.2, rfl⟩
  · rintro ⟨magnitude, hrounds, hlt, rfl⟩
    refine ⟨magnitude, ?_, rfl⟩
    rw [Decimal.magnitude?_eq_some_iff, value_decimal]
    exact ⟨hrounds, hlt⟩

end Numeral

end Abacus
