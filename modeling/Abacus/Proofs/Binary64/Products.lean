import Abacus.Number.Basic
import Abacus.Proofs.Binary64.Patterns

/-!
# Products with minus one

A product is formed exactly and then rounded: bits are dropped from below until it has as many as
the format allows.  A factor of minus one adds 52 bits at the end of the other one, all of them
zero, and these are just what is dropped again.

## Main definitions

* `Binary64.IsCanonical` — a number has the exponent that its format gives it.

## Main results

* `Binary64.isCanonical_unpack` — what is unpacked is canonical.
* `Binary64.roundWithAccuracy_of_isCanonical` — **canonical numbers are not changed by rounding.**
* `Binary64.minusOne_mul` — **to multiply by minus one is to turn the sign**, for every float.
-/

namespace Abacus.Binary64

open Float.Model Float.Model.UnpackedFloat

/-! ### Canonical numbers -/

/-- A finite number has the exponent that the format gives it, so it has no more bits than the
format allows, and no more zeros behind them than it has to. -/
def IsCanonical (m : Nat) (e : Int) : Prop :=
  Format.binary64.targetExponent (totalExponent m e) = e

theorem isCanonical_subnormal {m : Nat} (hpos : 0 < m) (hlt : m < 2 ^ 52) :
    IsCanonical m (-1074) := by
  have hlog : m.log2 < 52 := (Nat.log2_lt (by omega)).mpr hlt
  have hbits : (Format.binary64.mantissaBits : Int) = 53 := rfl
  have hmin : Format.binary64.minExponent = -1074 := rfl
  unfold IsCanonical Format.targetExponent totalExponent
  omega

theorem isCanonical_normal {m : Nat} {e : Int} (hle : 2 ^ 52 ≤ m) (hlt : m < 2 ^ 53)
    (he : -1074 ≤ e) : IsCanonical m e := by
  have hlog : m.log2 = 52 := (Nat.log2_eq_iff (by omega)).mpr ⟨hle, hlt⟩
  have hbits : (Format.binary64.mantissaBits : Int) = 53 := rfl
  have hmin : Format.binary64.minExponent = -1074 := rfl
  unfold IsCanonical Format.targetExponent totalExponent
  omega

/-- **What is unpacked is canonical.** -/
theorem isCanonical_unpack {b : BitVec 64} {s : Sign} {m : Nat} {e : Int} {hpos : 0 < m}
    (h : UnpackedFloat.unpack .binary64 b = .finite s m e hpos) : IsCanonical m e := by
  have hbias : (Format.binary64.exponentBias : Int)
      + Format.binary64.mantissaBitsWithoutImplicit = 1075 := rfl
  unfold UnpackedFloat.unpack at h
  dsimp only at h
  rw [hbias] at h
  split at h
  · split at h <;> cases h
  · split at h
    · -- A subnormal has no implicit bit, and its exponent is the least there is.
      next hexponent =>
      split at h
      · cases h
      · rw [UnpackedFloat.finite.injEq] at h
        obtain ⟨-, rfl, rfl⟩ := h
        rw [hexponent]
        exact isCanonical_subnormal hpos (BitVec.isLt _)
    · next hexponent =>
      rw [UnpackedFloat.finite.injEq] at h
      obtain ⟨-, rfl, rfl⟩ := h
      have hf := (@unpackMantissa .binary64 b).isLt
      -- A normal has the implicit bit in front of its mantissa field.
      have hlead : (1#1 ++ @unpackMantissa .binary64 b).toNat
          = 2 ^ 52 + (@unpackMantissa .binary64 b).toNat := by
        rw [BitVec.toNat_append, ← Nat.shiftLeft_add_eq_or_of_lt hf]
        rfl
      have hfield : (@unpackExponent .binary64 b).toNat ≠ 0 :=
        fun hzero => hexponent (BitVec.eq_of_toNat_eq hzero)
      exact isCanonical_normal (by omega) (by omega) (by omega)

/-! ### Dropping zeros -/

/-- Zeros that are dropped leave nothing to be rounded. -/
theorem shiftRight_two_pow_mul (k : Nat) : ∀ m : Nat,
    (⟨2 ^ k * m, false, false⟩ : ExtendedMantissa) >>> k = ⟨m, false, false⟩ := by
  induction k with
  | zero => intro m; rw [pow_zero, one_mul]; rfl
  | succ k ih =>
    intro m
    -- One shift drops a zero, so neither the rounding bit nor the sticky bit is set.
    have hfirst : (⟨2 ^ (k + 1) * m, false, false⟩ : ExtendedMantissa) >>> (k + 1)
        = ((⟨2 ^ k * (2 * m), false, false⟩ : ExtendedMantissa) >>> k).shiftRightOne := by
      rw [pow_succ, mul_assoc]
      rfl
    rw [hfirst, ih, ExtendedMantissa.shiftRightOne]
    simp

theorem log2_two_pow_mul {m : Nat} (hm : 0 < m) (k : Nat) : (2 ^ k * m).log2 = k + m.log2 := by
  have hpos := Nat.two_pow_pos k
  obtain ⟨hle, hlt⟩ := (Nat.log2_eq_iff (by omega)).mp (rfl : m.log2 = m.log2)
  rw [Nat.log2_eq_iff (Nat.mul_ne_zero (by omega) (by omega)), Nat.add_assoc, pow_add, pow_add 2 k]
  exact ⟨Nat.mul_le_mul_left _ hle, Nat.mul_lt_mul_of_pos_left hlt hpos⟩

theorem shiftToTargetExponent_of_isCanonical {m : Nat} {e : Int} (h : IsCanonical m e)
    (hpos : 0 < m) (k : Nat) :
    shiftToTargetExponent .binary64 (2 ^ k * m) (e - k) .exact = (⟨m, false, false⟩, e) := by
  -- The extra factors of two are what the smaller exponent takes back.
  have htotal : totalExponent (2 ^ k * m) (e - k) = totalExponent m e := by
    unfold totalExponent
    rw [log2_two_pow_mul hpos]
    omega
  have hamount : (e - (e - (k : Int))).toNat = k := by omega
  have hexponent : e - (k : Int) + (k : Int) = e := by omega
  unfold shiftToTargetExponent shiftToExponent
  dsimp only
  rw [htotal, h, hamount, ExtendedMantissa.ofMantissaAndAccuracy, shiftRight_two_pow_mul, hexponent]

/-- **Canonical numbers are not changed by rounding**, whatever zeros stand behind them. -/
theorem roundWithAccuracy_of_isCanonical {m : Nat} {e : Int} (h : IsCanonical m e) (hpos : 0 < m)
    (s : Sign) (k : Nat) :
    roundWithAccuracy .binary64 s (2 ^ k * m) (e - k) .exact = .finite s m e hpos := by
  have hfirst := shiftToTargetExponent_of_isCanonical h hpos k
  -- nothing was rounded up, so there is nothing left to be dropped
  have hsecond : shiftToTargetExponent .binary64 m e .exact = (⟨m, false, false⟩, e) := by
    simpa using shiftToTargetExponent_of_isCanonical h hpos 0
  have hrounded : (⟨m, false, false⟩ : ExtendedMantissa).roundedMantissa = m := rfl
  unfold roundWithAccuracy
  simp only [hfirst, hrounded, hsecond]
  rw [dif_neg (by omega)]

/-! ### The sign -/

theorem negative_mul (s : Sign) : Sign.negative * s = -s := by
  cases s <;> rfl

theorem unpack_minusOne :
    UnpackedFloat.unpack .binary64 (floatOfInteger (-1)).toBits.toBitVec
      = .finite .negative (2 ^ 52) (-52) (by decide) := by
  have hbits : (floatOfInteger (-1)).toBits = 0xBFF0000000000000 := by decide +kernel
  rw [hbits]
  rfl

/-- **To multiply by minus one is to turn the sign**, also of an infinity or of no number. -/
theorem minusOne_mul (x : Float) : (floatOfInteger (-1)).mul x = x.neg := by
  have hmul : UnpackedFloat.mul .binary64 (.finite .negative (2 ^ 52) (-52) (by decide))
      (UnpackedFloat.unpack .binary64 x.toBits.toBitVec)
        = (UnpackedFloat.unpack .binary64 x.toBits.toBitVec).neg := by
    cases hx : UnpackedFloat.unpack .binary64 x.toBits.toBitVec with
    | notANumber => rfl
    | infinity s => exact congrArg UnpackedFloat.infinity (negative_mul s)
    | zero s => exact congrArg UnpackedFloat.zero (negative_mul s)
    | finite s m e hpos =>
      have hexponent : (-52 : Int) + e = e - (52 : Nat) := by omega
      -- Minus one has the mantissa 2 ^ 52, which only moves the other one up: the rounding is
      -- exact.
      show roundWithAccuracy .binary64 (.negative * s) (2 ^ 52 * m) (-52 + e) .exact = _
      rw [hexponent, negative_mul,
        roundWithAccuracy_of_isCanonical (isCanonical_unpack hx) hpos (-s) 52]
      rfl
  have hproduct : ((floatOfInteger (-1)).mul x).toBits
      = .ofBitVec (UnpackedFloat.pack .binary64 (UnpackedFloat.mul .binary64
          (UnpackedFloat.unpack .binary64 (floatOfInteger (-1)).toBits.toBitVec)
          (UnpackedFloat.unpack .binary64 x.toBits.toBitVec))) := rfl
  have hopposite : x.neg.toBits
      = .ofBitVec (UnpackedFloat.pack .binary64
          (UnpackedFloat.unpack .binary64 x.toBits.toBitVec).neg) := rfl
  exact eq_of_toBits_eq (by rw [hproduct, unpack_minusOne, hmul, hopposite])

end Abacus.Binary64
