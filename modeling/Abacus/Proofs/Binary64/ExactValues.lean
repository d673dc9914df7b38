import Abacus.Proofs.Binary64.Nearest
import Abacus.Proofs.Binary64.Patterns

/-!
# Exact values

A float that is a number is a rational number or an infinity, and all there is beside its value is
the sign of a zero.  Floats are compared unpacked, by their exponents first; since what is unpacked
can be packed again, this comes to the comparison of their values.

## Main definitions

* `ExactValue` — a rational number or an infinity.
* `Binary64.signedValue`, `Binary64.exactValue?` — the number that a float is.

## Main results

* `Binary64.pack_unpack` — what is unpacked is packed to the same pattern.
* `Binary64.ofFloat_inj` — floats that are numbers are told apart by what they are.
* `Binary64.beq_iff_exactValue?` — **floats are equal if they are the same number.**
* `Binary64.exists_value_eq` — whole numbers of 53 bits are magnitudes.
-/

namespace Abacus

/-- What a number is exactly. -/
inductive ExactValue
  | rational (q : ℚ)
  | infinite (negative : Bool)
  deriving DecidableEq

namespace Binary64

open Float.Model Float.Model.UnpackedFloat

/-- The number that a sign and a magnitude are. -/
def signedValue (negative : Bool) (magnitude : Nat) : ℚ :=
  if negative then -value magnitude else value magnitude

/-- The exact value of a float, if it is a number. -/
def exactValue? : Binary64 → Option ExactValue
  | nan => none
  | infinite negative => some (.infinite negative)
  | finite negative magnitude => some (.rational (signedValue negative magnitude))

/-! ### Unpacked patterns -/

section Unpack

variable {b : BitVec 64}

theorem packComponents_unpack (b : BitVec 64) :
    packComponents .binary64 (Sign.ofBitVec (@unpackSign .binary64 b))
      (@unpackExponent .binary64 b) (@unpackMantissa .binary64 b) = b := by
  apply BitVec.eq_of_toNat_eq
  rw [toNat_packComponents, toBitVec_ofBitVec, toNat_unpackSign, toNat_unpackExponent,
    toNat_unpackMantissa]
  have hlt := b.isLt
  omega

/-- **What is unpacked is packed to the same pattern**, unless it is no number. -/
theorem pack_unpack (h : UnpackedFloat.unpack .binary64 b ≠ .notANumber) :
    UnpackedFloat.pack .binary64 (UnpackedFloat.unpack .binary64 b) = b := by
  by_cases hfull : @unpackExponent .binary64 b = -1#11
  · -- With a full exponent field it is an infinity.
    have hcomponents := packComponents_unpack b
    unfold UnpackedFloat.unpack at h ⊢
    dsimp only at h ⊢
    rw [if_pos hfull] at h ⊢
    split at h
    · next hfraction =>
      rw [if_pos hfraction]
      rw [hfull, hfraction] at hcomponents
      exact hcomponents
    · exact absurd rfl h
  · rw [← withSign_unpack, pack_withSign_unpack _ hfull, packComponents_unpack]

theorem unpackExponent_eq_full_iff :
    @unpackExponent .binary64 b = -1#11 ↔ infinity ≤ b.toNat % signBit := by
  have hones : (-1#11).toNat = 2047 := rfl
  have hlt := b.isLt
  rw [← BitVec.toNat_inj, toNat_unpackExponent, hones]
  simp only [signBit, infinity]
  omega

theorem unpackExponent_eq_zero_iff :
    @unpackExponent .binary64 b = 0#11 ↔ b.toNat % signBit < exponentBit := by
  have hlt := b.isLt
  rw [← BitVec.toNat_inj, toNat_unpackExponent, BitVec.toNat_zero]
  simp only [signBit, exponentBit]
  omega

theorem unpackMantissa_eq_zero_iff :
    @unpackMantissa .binary64 b = 0#52 ↔ b.toNat % signBit % exponentBit = 0 := by
  rw [← BitVec.toNat_inj, toNat_unpackMantissa, BitVec.toNat_zero]
  simp only [signBit, exponentBit]
  omega

/-- A pattern past that of infinity is unpacked as no number. -/
theorem unpack_eq_notANumber_iff :
    UnpackedFloat.unpack .binary64 b = .notANumber ↔ infinity < b.toNat % signBit := by
  have hlt : b.toNat % signBit < signBit := Nat.mod_lt _ (by decide)
  unfold UnpackedFloat.unpack
  dsimp only
  split
  · -- With a full exponent field the pattern is at least infinity, and more with a mantissa.
    next hfull =>
    rw [unpackExponent_eq_full_iff] at hfull
    split
    · next hfraction =>
      rw [unpackMantissa_eq_zero_iff] at hfraction
      refine iff_of_false (by simp) ?_
      simp only [signBit, infinity, exponentBit] at *
      omega
    · next hfraction =>
      rw [unpackMantissa_eq_zero_iff] at hfraction
      refine iff_of_true rfl ?_
      simp only [signBit, infinity, exponentBit] at *
      omega
  · next hfull =>
    rw [unpackExponent_eq_full_iff] at hfull
    refine iff_of_false ?_ (by omega)
    split
    · split <;> simp
    · simp

/-- A pattern without a bit below that of the sign is unpacked as zero. -/
theorem exists_unpack_eq_zero_iff :
    (∃ s, UnpackedFloat.unpack .binary64 b = .zero s) ↔ b.toNat % signBit = 0 := by
  unfold UnpackedFloat.unpack
  dsimp only
  split
  · next hfull =>
    rw [unpackExponent_eq_full_iff] at hfull
    refine iff_of_false ?_ ?_
    · split <;> simp
    · simp only [infinity] at hfull
      omega
  · split
    · next hfield =>
      rw [unpackExponent_eq_zero_iff] at hfield
      split
      · next hfraction =>
        -- Without an exponent field the lower bits are the mantissa.
        rw [unpackMantissa_eq_zero_iff, Nat.mod_eq_of_lt hfield] at hfraction
        exact iff_of_true ⟨_, rfl⟩ hfraction
      · next hfraction =>
        rw [unpackMantissa_eq_zero_iff, Nat.mod_eq_of_lt hfield] at hfraction
        exact iff_of_false (by simp) hfraction
    · next hfield =>
      rw [unpackExponent_eq_zero_iff] at hfield
      refine iff_of_false (by simp) ?_
      simp only [exponentBit] at hfield
      omega

/-- Unpacked floats compare equal if they are one and the same number, or both zero. -/
theorem compare_eq_some_eq_iff {u v : UnpackedFloat} : u.compare v = some .eq ↔
    (u = v ∧ u ≠ .notANumber) ∨ (∃ s, u = .zero s) ∧ ∃ t, v = .zero t := by
  cases u with
  | notANumber => simp [UnpackedFloat.compare]
  | infinity s =>
    cases v with
    | infinity t => cases s <;> cases t <;> simp [UnpackedFloat.compare] <;> decide
    | notANumber | zero | finite => cases s <;> simp [UnpackedFloat.compare]
  | zero s =>
    cases v with
    | infinity t | finite t => cases t <;> simp [UnpackedFloat.compare]
    | notANumber | zero => simp [UnpackedFloat.compare]
  | finite s =>
    cases v with
    | infinity t => cases t <;> cases s <;> simp [UnpackedFloat.compare]
    | notANumber | zero => cases s <;> simp [UnpackedFloat.compare]
    | finite t =>
      cases s <;> cases t <;> simp [UnpackedFloat.compare, Ordering.then_eq_eq, and_comm]

end Unpack

/-! ### Floats as patterns -/

theorem ofPattern_eq_nan_iff {pattern : Nat} :
    ofPattern pattern = nan ↔ infinity < pattern % signBit := by
  unfold ofPattern
  dsimp only
  split
  · exact iff_of_false nofun (by omega)
  · split
    · exact iff_of_false nofun (by omega)
    · exact iff_of_true rfl (by omega)

/-- A pattern can be told from what it is, unless it is no number. -/
theorem toPattern_ofPattern {pattern : Nat} (hlt : pattern < signBit + signBit)
    (h : ofPattern pattern ≠ nan) : (ofPattern pattern).toPattern = pattern := by
  -- The sign bit and what is below it make up the pattern.
  have hpattern : pattern % signBit
      + (if decide (signBit ≤ pattern) = true then signBit else 0) = pattern := by
    rcases Nat.lt_or_ge pattern signBit with hpositive | hnegative
    · rw [decide_eq_false (Nat.not_le.mpr hpositive), if_neg Bool.false_ne_true, Nat.add_zero,
        Nat.mod_eq_of_lt hpositive]
    · rw [decide_eq_true hnegative, if_pos rfl]
      simp only [signBit] at *
      omega
  unfold ofPattern at h ⊢
  dsimp only at h ⊢
  split
  · exact hpattern
  · next hfinite =>
    rw [if_neg hfinite] at h
    split
    · next hinfinity =>
      rw [hinfinity] at hpattern
      exact hpattern
    · next hinfinity =>
      rw [if_neg hinfinity] at h
      exact absurd rfl h

section Floats

variable {x y : Float}

/-- **Floats that are numbers are told apart by what they are.** -/
theorem ofFloat_inj (hx : ofFloat x ≠ nan) : ofFloat x = ofFloat y ↔ x = y := by
  constructor
  · intro h
    have hsize : signBit + signBit = UInt64.size := by decide
    have hy : ofFloat y ≠ nan := h ▸ hx
    -- Only the patterns of what is no number are confused, and those are excluded.
    have hxpattern := toPattern_ofPattern (hsize ▸ x.toBits.toNat_lt) hx
    have hypattern := toPattern_ofPattern (hsize ▸ y.toBits.toNat_lt) hy
    apply eq_of_toBits_eq
    apply UInt64.toNat_inj.mp
    rw [← hxpattern, ← hypattern]
    exact congrArg toPattern h
  · intro h
    rw [h]

theorem unpack_toBits_eq_notANumber_iff :
    UnpackedFloat.unpack .binary64 x.toBits.toBitVec = .notANumber ↔ ofFloat x = nan := by
  rw [unpack_eq_notANumber_iff, UInt64.toNat_toBitVec, ofFloat, ofPattern_eq_nan_iff]

theorem exists_unpack_toBits_eq_zero_iff :
    (∃ s, UnpackedFloat.unpack .binary64 x.toBits.toBitVec = .zero s) ↔
      ∃ s, ofFloat x = finite s 0 := by
  rw [exists_unpack_eq_zero_iff, UInt64.toNat_toBitVec]
  simp only [ofFloat_eq_finite_iff]
  constructor
  · intro h
    exact ⟨_, rfl, h, by decide⟩
  · rintro ⟨s, -, h, -⟩
    exact h

theorem isNaN_iff : x.isNaN = true ↔ ofFloat x = nan := by
  have hx : x.isNaN = (UnpackedFloat.unpack .binary64 x.toBits.toBitVec).isNaN := rfl
  rw [hx, ← unpack_toBits_eq_notANumber_iff]
  cases UnpackedFloat.unpack .binary64 x.toBits.toBitVec <;> simp [UnpackedFloat.isNaN]

/-- Floats are equal if they are one and the same number, or both zero. -/
theorem beq_iff : Float.beq x y = true ↔
    (x = y ∧ ofFloat x ≠ nan) ∨ (∃ s, ofFloat x = finite s 0) ∧ ∃ t, ofFloat y = finite t 0 := by
  have hbeq : Float.beq x y = ((UnpackedFloat.unpack .binary64 x.toBits.toBitVec).compare
      (UnpackedFloat.unpack .binary64 y.toBits.toBitVec) == some .eq) := rfl
  rw [hbeq, beq_iff_eq, compare_eq_some_eq_iff, exists_unpack_toBits_eq_zero_iff,
    exists_unpack_toBits_eq_zero_iff, ne_eq, unpack_toBits_eq_notANumber_iff]
  -- The zeros compare as equal by their kind; the others are equal as patterns.
  apply or_congr_left
  apply and_congr_left
  intro hx
  constructor
  · intro h
    have hxpack := pack_unpack (mt unpack_toBits_eq_notANumber_iff.mp hx)
    have hypack := pack_unpack (h ▸ mt unpack_toBits_eq_notANumber_iff.mp hx)
    apply eq_of_toBits_eq
    apply UInt64.toBitVec_inj.mp
    rw [← hxpack, ← hypack, h]
  · intro h
    rw [h]

end Floats

/-! ### Values -/

/-- Only zero is the same number with either sign. -/
theorem signedValue_inj {s t : Bool} {m n : Nat} : signedValue s m = signedValue t n ↔
    (s = t ∧ m = n) ∨ m = 0 ∧ n = 0 := by
  have hm := value_nonneg m
  have hn := value_nonneg n
  have hinj : value m = value n ↔ m = n := value_strictMono.injective.eq_iff
  -- Both signs give one value at zero only.
  have hzero : value m = -value n ↔ m = 0 ∧ n = 0 := by
    rw [← value_eq_zero_iff, ← value_eq_zero_iff]
    constructor
    · intro h
      constructor <;> linarith
    · rintro ⟨h, h'⟩
      rw [h, h', neg_zero]
  have hzero' : -value m = value n ↔ m = 0 ∧ n = 0 := by rw [neg_eq_iff_eq_neg, hzero]
  cases s <;> cases t <;> simp [signedValue, hinj, hzero, hzero'] <;> rintro rfl rfl <;> rfl

theorem exists_exactValue?_iff {u v : Binary64} :
    (∃ w, u.exactValue? = some w ∧ v.exactValue? = some w) ↔
      (u = v ∧ u ≠ nan) ∨ (∃ s, u = finite s 0) ∧ ∃ t, v = finite t 0 := by
  cases u with
  | nan => simp [exactValue?]
  | infinite s => cases v <;> simp [exactValue?, eq_comm]
  | finite s m =>
    cases v with
    | nan | infinite => simp [exactValue?]
    | finite t n => simp [exactValue?, eq_comm, signedValue_inj]

/-- **Floats are equal if they are the same number.** -/
theorem beq_iff_exactValue? {x y : Float} : Float.beq x y = true ↔
    ∃ w, (ofFloat x).exactValue? = some w ∧ (ofFloat y).exactValue? = some w := by
  rw [beq_iff, exists_exactValue?_iff, and_congr_left fun hx => (ofFloat_inj hx).symm]

theorem exactValue?_eq_none_iff {u : Binary64} : u.exactValue? = none ↔ u = nan := by
  cases u <;> simp [exactValue?]

theorem exactValue?_eq_some_rational_iff {u : Binary64} {q : ℚ} :
    u.exactValue? = some (.rational q) ↔
      ∃ s magnitude, u = finite s magnitude ∧ signedValue s magnitude = q := by
  cases u <;> simp [exactValue?]

/-! ### Whole numbers -/

/-- A whole number is the value of its sign and its magnitude. -/
theorem signedValue_of_value_eq {n : Int} {magnitude : Nat} (h : value magnitude = n.natAbs) :
    signedValue (decide (n < 0)) magnitude = n := by
  have habs : (n.natAbs : ℚ) = |(n : ℚ)| := by rw [Nat.cast_natAbs, Int.cast_abs]
  unfold signedValue
  by_cases hn : n < 0
  · have hn' : (n : ℚ) < 0 := Int.cast_lt_zero.mpr hn
    rw [if_pos (decide_eq_true hn), h, habs, abs_of_neg hn', neg_neg]
  · have hn' : (0 : ℚ) ≤ n := Int.cast_nonneg (not_lt.mp hn)
    rw [if_neg (by simpa using hn), h, habs, abs_of_nonneg hn']

theorem value_eq_of_signedValue_eq {n : Int} {s : Bool} {magnitude : Nat}
    (h : signedValue s magnitude = n) : value magnitude = n.natAbs := by
  have hvalue := value_nonneg magnitude
  rw [Nat.cast_natAbs, Int.cast_abs, ← h]
  cases s with
  | false => exact (abs_of_nonneg hvalue).symm
  | true => exact ((abs_neg _).trans (abs_of_nonneg hvalue)).symm

/-- **Whole numbers of 53 bits are magnitudes**, and so is the next one. -/
theorem exists_value_eq {whole : Nat} (h : whole ≤ 2 ^ 53) :
    ∃ magnitude, value magnitude = whole := by
  rcases Nat.eq_zero_or_pos whole with rfl | hpos
  · exact ⟨0, value_zero⟩
  · -- The leading bit is shifted to the place that the patterns leave it out from.
    obtain ⟨lead, hlead, hle, hlt⟩ : ∃ lead ≤ 52, 2 ^ lead ≤ whole ∧ whole ≤ 2 ^ (lead + 1) := by
      rcases Nat.le_total whole.log2 52 with hsmall | hlarge
      · exact ⟨_, hsmall, Nat.log2_self_le (Nat.ne_of_gt hpos), Nat.le_of_lt Nat.lt_log2_self⟩
      · exact ⟨52, Nat.le_refl _, Nat.le_trans (Nat.pow_le_pow_right (by decide) hlarge)
          (Nat.log2_self_le (Nat.ne_of_gt hpos)), h⟩
    have hsteps : whole * 2 ^ (52 - lead) ≤ 2 * exponentBit := by
      have hbits : lead + 1 + (52 - lead) = 53 := by omega
      calc whole * 2 ^ (52 - lead)
          ≤ 2 ^ (lead + 1) * 2 ^ (52 - lead) := Nat.mul_le_mul_right _ hlt
        _ = 2 ^ 53 := by rw [← Nat.pow_add, hbits]
    have hfull : exponentBit ≤ whole * 2 ^ (52 - lead) := by
      have hbits : lead + (52 - lead) = 52 := by omega
      calc 2 ^ 52
          = 2 ^ lead * 2 ^ (52 - lead) := by rw [← Nat.pow_add, hbits]
        _ ≤ whole * 2 ^ (52 - lead) := Nat.mul_le_mul_right _ hle
    have hpower : ∀ e, e = 1074 → 2 ^ e = unitsPerOne := by
      rintro _ rfl
      decide +kernel
    have hmagnitude : units ((1022 + lead) * exponentBit + whole * 2 ^ (52 - lead))
        = whole * 2 ^ 0 * unitsPerOne := by
      rw [units_step hsteps (.inr hfull), Nat.mul_assoc, ← Nat.pow_add, hpower _ (by omega),
        Nat.pow_zero, Nat.mul_one]
    refine ⟨_, (value_of_units hmagnitude).trans ?_⟩
    rw [pow_zero, mul_one]

end Binary64

end Abacus
