import Abacus.Binary64.Basic
import Mathlib

/-!
# Floats and their patterns

A float packs a sign, an exponent field and a fraction into 64 bits.  To change the sign of a finite
float is to change its sign bit, and a finite float is determined by what `Binary64` keeps of it.

## Main results

* `Binary64.eq_of_ofFloat_eq` — a finite float is determined by its sign and magnitude.
* `Binary64.ofFloat_toFloat` — every sign and finite magnitude is that of a float.
* `Binary64.ofFloat_neg` — turning the sign leaves the magnitude.
* `Binary64.exists_ofFloat_eq_finite` — the finite floats are those with a finite magnitude.
-/

namespace Abacus.Binary64

open Float.Model Float.Model.UnpackedFloat

/-! ### The three fields of a pattern -/

theorem toNat_packComponents (s : Sign) (e : BitVec 11) (f : BitVec 52) :
    (packComponents .binary64 s e f).toNat
      = s.toBitVec.toNat * 2 ^ 63 + e.toNat * 2 ^ 52 + f.toNat := by
  have happend : (packComponents .binary64 s e f).toNat
      = ((s.toBitVec.toNat <<< 11 ||| e.toNat) <<< 52) ||| f.toNat := by
    rw [packComponents, BitVec.toNat_append, BitVec.toNat_append]
  rw [happend, ← Nat.shiftLeft_add_eq_or_of_lt e.isLt, ← Nat.shiftLeft_add_eq_or_of_lt f.isLt,
    Nat.shiftLeft_eq, Nat.shiftLeft_eq]
  omega

theorem toNat_unpackMantissa (b : BitVec 64) :
    (@unpackMantissa .binary64 b).toNat = b.toNat % 2 ^ 52 := by
  simp [unpackMantissa, BitVec.extractLsb]

theorem toNat_unpackExponent (b : BitVec 64) :
    (@unpackExponent .binary64 b).toNat = b.toNat / 2 ^ 52 % 2 ^ 11 := by
  simp [unpackExponent, BitVec.extractLsb, Nat.shiftRight_eq_div_pow]

theorem toNat_unpackSign (b : BitVec 64) :
    (@unpackSign .binary64 b).toNat = b.toNat / 2 ^ 63 := by
  have := b.isLt
  simp [unpackSign, BitVec.extractLsb, Nat.shiftRight_eq_div_pow]
  omega

/-! ### Packing with another sign -/

/-- The same number with the given sign. -/
def withSign (s : Sign) : UnpackedFloat → UnpackedFloat
  | .notANumber => .notANumber
  | .infinity _ => .infinity s
  | .zero _ => .zero s
  | .finite _ m e h => .finite s m e h

/-- Without a leading bit a fraction is packed below the exponent field one. -/
theorem pack_subnormal (s : Sign) {f : BitVec 52} (h : 0 < f.toNat) :
    UnpackedFloat.pack .binary64 (.finite s f.toNat (-1074) h)
      = packComponents .binary64 s 0#11 f := by
  have hlog : f.toNat.log2 < 52 := (Nat.log2_lt (by omega)).mpr f.isLt
  have hbiased : ((-1074 : Int) + Format.binary64.exponentBias
      + Format.binary64.mantissaBitsWithoutImplicit).toNat = 1 := rfl
  have hbits : Format.binary64.mantissaBits = 53 := rfl
  unfold UnpackedFloat.pack
  dsimp only
  rw [hbiased, hbits, if_neg (by decide), if_neg (by omega), BitVec.ofNat_toNat]
  rfl

/-- A leading bit goes into the exponent field, which is not full. -/
theorem pack_normal (s : Sign) {e : BitVec 11} {f : BitVec 52} (he : e ≠ -1#11)
    (h : 0 < (1#1 ++ f).toNat) :
    UnpackedFloat.pack .binary64 (.finite s (1#1 ++ f).toNat ((e.toNat : Int) - 1075) h)
      = packComponents .binary64 s e f := by
  have hf := f.isLt
  have hlead : (1#1 ++ f).toNat = 2 ^ 52 + f.toNat := by
    rw [BitVec.toNat_append, ← Nat.shiftLeft_add_eq_or_of_lt f.isLt]
    rfl
  -- The leading bit is the fifty-third, so it is the one that a normal number leaves out.
  have hlog : (2 ^ 52 + f.toNat).log2 = 52 := by
    rw [Nat.log2_eq_iff (by omega)]
    omega
  have hfull : e.toNat ≠ 2047 := fun hfull => he (BitVec.eq_of_toNat_eq hfull)
  have hlt := e.isLt
  have hbiased : ((e.toNat : Int) - 1075 + Format.binary64.exponentBias
      + Format.binary64.mantissaBitsWithoutImplicit).toNat = e.toNat := by
    have hbias : (Format.binary64.exponentBias : Int) = 1023 := rfl
    have hbits : (Format.binary64.mantissaBitsWithoutImplicit : Int) = 52 := rfl
    omega
  have hfraction : BitVec.ofNat 52 (2 ^ 52 + f.toNat) = f := by
    refine BitVec.eq_of_toNat_eq ?_
    rw [BitVec.toNat_ofNat]
    omega
  have hcapacity : ¬ 2 ^ 11 ≤ e.toNat + 1 := by omega
  unfold UnpackedFloat.pack
  dsimp only
  rw [hbiased, hlead, hlog, if_neg hcapacity, if_pos (by rfl), BitVec.ofNat_toNat, hfraction]
  rfl

/-- **To pack a finite pattern with another sign is to change its sign field.** -/
theorem pack_withSign_unpack (s : Sign) {b : BitVec 64}
    (h : @unpackExponent .binary64 b ≠ -1#11) :
    UnpackedFloat.pack .binary64 (withSign s (UnpackedFloat.unpack .binary64 b))
      = packComponents .binary64 s (@unpackExponent .binary64 b) (@unpackMantissa .binary64 b) := by
  have hbias : (Format.binary64.exponentBias : Int)
      + Format.binary64.mantissaBitsWithoutImplicit = 1075 := rfl
  unfold UnpackedFloat.unpack
  dsimp only
  rw [if_neg h, hbias]
  -- Zero and the subnormals have no exponent field; the normals are the last case.
  split
  · next hzero =>
    rw [hzero]
    split
    · next hfraction =>
      rw [hfraction]
      rfl
    · next hfraction =>
      exact pack_subnormal s _
  · exact pack_normal s h _

theorem withSign_unpack (b : BitVec 64) :
    withSign (Sign.ofBitVec (@unpackSign .binary64 b)) (UnpackedFloat.unpack .binary64 b)
      = UnpackedFloat.unpack .binary64 b := by
  unfold UnpackedFloat.unpack
  dsimp only
  split
  · split <;> rfl
  · split
    · split <;> rfl
    · rfl

theorem neg_unpack (b : BitVec 64) :
    (UnpackedFloat.unpack .binary64 b).neg
      = withSign (-Sign.ofBitVec (@unpackSign .binary64 b)) (UnpackedFloat.unpack .binary64 b) := by
  unfold UnpackedFloat.unpack
  dsimp only
  split
  · split <;> rfl
  · split
    · split <;> rfl
    · rfl

theorem toBitVec_ofBitVec (v : BitVec 1) : (Sign.ofBitVec v).toBitVec = v := by
  revert v
  decide

theorem toNat_toBitVec_neg (s : Sign) : (-s).toBitVec.toNat = 1 - s.toBitVec.toNat := by
  cases s <;> rfl

/-- A pattern below infinity has no full exponent field. -/
theorem unpackExponent_ne {b : BitVec 64} (h : b.toNat % signBit < infinity) :
    @unpackExponent .binary64 b ≠ -1#11 := by
  intro hfull
  have hexponent := toNat_unpackExponent b
  rw [hfull] at hexponent
  have hones : (-1#11).toNat = 2047 := rfl
  simp only [signBit, infinity] at h
  omega

theorem toNat_pack_withSign (s : Sign) {b : BitVec 64} (h : b.toNat % signBit < infinity) :
    (UnpackedFloat.pack .binary64 (withSign s (UnpackedFloat.unpack .binary64 b))).toNat
      = s.toBitVec.toNat * signBit + b.toNat % signBit := by
  rw [pack_withSign_unpack s (unpackExponent_ne h), toNat_packComponents, toNat_unpackExponent,
    toNat_unpackMantissa]
  simp only [signBit]
  omega

/-! ### Floats -/

theorem toBits_ofBits {u : UInt64} (h : u.toNat % signBit < infinity) :
    (Float.ofBits u).toBits = u := by
  have hpack := toNat_pack_withSign (Sign.ofBitVec (@unpackSign .binary64 u.toBitVec)) h
  rw [withSign_unpack, toBitVec_ofBitVec, toNat_unpackSign] at hpack
  have hbits : (Float.ofBits u).toBits
      = .ofBitVec (UnpackedFloat.pack .binary64 (UnpackedFloat.unpack .binary64 u.toBitVec)) := rfl
  rw [hbits]
  refine UInt64.toNat_inj.mp (hpack.trans ?_)
  simp only [signBit, UInt64.toNat_toBitVec]
  omega

theorem toNat_toBits_neg {x : Float} (h : x.toBits.toNat % signBit < infinity) :
    x.neg.toBits.toNat
      = (1 - x.toBits.toNat / signBit) * signBit + x.toBits.toNat % signBit := by
  have hpack := toNat_pack_withSign (-Sign.ofBitVec (@unpackSign .binary64 x.toBits.toBitVec)) h
  rw [← neg_unpack, toNat_toBitVec_neg, toBitVec_ofBitVec, toNat_unpackSign] at hpack
  exact hpack

theorem eq_of_toBits_eq {x y : Float} (h : x.toBits = y.toBits) : x = y := by
  obtain ⟨⟨u, hu⟩⟩ := x
  obtain ⟨⟨v, hv⟩⟩ := y
  obtain rfl : u = v := h
  rfl

theorem ofPattern_eq_finite_iff {pattern magnitude : Nat} {negative : Bool} :
    ofPattern pattern = finite negative magnitude ↔
      decide (signBit ≤ pattern) = negative ∧ pattern % signBit = magnitude ∧
        magnitude < infinity := by
  unfold ofPattern
  dsimp only
  split
  · next h =>
    rw [Binary64.finite.injEq]
    constructor
    · rintro ⟨rfl, rfl⟩
      exact ⟨rfl, rfl, h⟩
    · rintro ⟨rfl, rfl, -⟩
      exact ⟨rfl, rfl⟩
  · next h =>
    refine iff_of_false ?_ ?_
    · split <;> exact nofun
    · rintro ⟨-, rfl, hlt⟩
      exact h hlt

theorem ofFloat_eq_finite_iff {x : Float} {magnitude : Nat} {negative : Bool} :
    ofFloat x = finite negative magnitude ↔
      decide (signBit ≤ x.toBits.toNat) = negative ∧ x.toBits.toNat % signBit = magnitude ∧
        magnitude < infinity :=
  ofPattern_eq_finite_iff

theorem eq_of_ofFloat_eq {x y : Float} {magnitude : Nat} {negative : Bool}
    (hx : ofFloat x = finite negative magnitude) (hy : ofFloat y = finite negative magnitude) :
    x = y := by
  obtain ⟨hxsign, hxmagnitude, -⟩ := ofFloat_eq_finite_iff.mp hx
  obtain ⟨hysign, hymagnitude, -⟩ := ofFloat_eq_finite_iff.mp hy
  have hsign := decide_eq_decide.mp (hxsign.trans hysign.symm)
  have hxlt := x.toBits.toNat_lt
  have hylt := y.toBits.toNat_lt
  refine eq_of_toBits_eq (UInt64.toNat_inj.mp ?_)
  simp only [signBit] at hsign hxmagnitude hymagnitude
  omega

theorem ofFloat_toFloat (negative : Bool) {magnitude : Nat} (h : magnitude < infinity) :
    ofFloat (finite negative magnitude).toFloat = finite negative magnitude := by
  have hs := Nat.lt_trans h infinity_lt_signBit
  -- The pattern fits into 64 bits, and without its sign bit it is the magnitude.
  have hpattern : (UInt64.ofNat (finite negative magnitude).toPattern).toNat
      = (finite negative magnitude).toPattern := by
    refine UInt64.toNat_ofNat_of_lt' ?_
    have hsize : UInt64.size = signBit + signBit := rfl
    cases negative <;> simp [toPattern] <;> omega
  have hlower : (finite negative magnitude).toPattern % signBit = magnitude :=
    add_mod_signBit hs negative
  unfold ofFloat toFloat
  rw [toBits_ofBits (by rw [hpattern, hlower]; exact h), hpattern]
  exact ofPattern_toPattern_finite negative h

theorem ofFloat_neg {x : Float} {magnitude : Nat} {negative : Bool}
    (h : ofFloat x = finite negative magnitude) : ofFloat x.neg = finite (!negative) magnitude := by
  obtain ⟨hsign, hmagnitude, hlt⟩ := ofFloat_eq_finite_iff.mp h
  have hneg := toNat_toBits_neg (hmagnitude ▸ hlt)
  have hbits := x.toBits.toNat_lt
  rw [ofFloat_eq_finite_iff, ← hsign, ← decide_not]
  refine ⟨decide_eq_decide.mpr ?_, ?_, hlt⟩ <;> simp only [signBit] at hneg hmagnitude ⊢ <;> omega

/-- **The finite floats are those of finite magnitude.** -/
theorem exists_ofFloat_eq_finite {x : Float} (h : x.isFinite = true) :
    ∃ negative magnitude, magnitude < infinity ∧ ofFloat x = finite negative magnitude := by
  -- With a full exponent field the float would be unpacked as infinite or as no number.
  have hexponent : @unpackExponent .binary64 x.toBits.toBitVec ≠ -1#11 := by
    intro hfull
    have hx : x.isFinite = (UnpackedFloat.unpack .binary64 x.toBits.toBitVec).isFinite := rfl
    rw [hx] at h
    unfold UnpackedFloat.unpack at h
    dsimp only at h
    rw [if_pos hfull] at h
    split at h <;> exact nomatch h
  have hfield := toNat_unpackExponent x.toBits.toBitVec
  have hne : (@unpackExponent .binary64 x.toBits.toBitVec).toNat ≠ 2047 :=
    fun hfull => hexponent (BitVec.eq_of_toNat_eq hfull)
  have hlt : x.toBits.toNat % signBit < infinity := by
    rw [UInt64.toNat_toBitVec] at hfield
    have hbits := x.toBits.toNat_lt
    simp only [signBit, infinity]
    omega
  exact ⟨_, _, hlt, ofFloat_eq_finite_iff.mpr ⟨rfl, rfl, hlt⟩⟩

theorem isFinite_of_ofFloat {x : Float} {magnitude : Nat} {negative : Bool}
    (h : ofFloat x = finite negative magnitude) : x.isFinite = true := by
  obtain ⟨-, hmagnitude, hlt⟩ := ofFloat_eq_finite_iff.mp h
  have hexponent : @unpackExponent .binary64 x.toBits.toBitVec ≠ -1#11 :=
    unpackExponent_ne (hmagnitude ▸ hlt)
  -- Below infinity the exponent field is not full, and nothing else is infinite or no number.
  show (UnpackedFloat.unpack .binary64 x.toBits.toBitVec).isFinite = true
  unfold UnpackedFloat.unpack
  dsimp only
  rw [if_neg hexponent]
  split
  · split <;> rfl
  · rfl

end Abacus.Binary64
