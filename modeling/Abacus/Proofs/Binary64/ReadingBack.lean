import Abacus.Binary64.Shortest
import Abacus.Proofs.Binary64.Rounding
import Mathlib

/-!
# Shortest decimals read back

The search for the shortest decimal only ever stops at one that reads back, and it starts from the
exact expansion, which does.

## Main results

* `Binary64.magnitude?_exactDecimal` — the exact expansion of a magnitude reads back.
* `Binary64.magnitude?_shortestDecimal` — **the decimal a magnitude is written as reads back.**
* `Decimal.magnitude?_tenths` — a decimal without places reads like the one with a zero behind its
  point.
-/

namespace Abacus

namespace Binary64

theorem finite?_of_lt {magnitude : Nat} (h : magnitude < infinity) :
    finite? magnitude = some magnitude := if_pos h

theorem units_eq_zero_iff {magnitude : Nat} : units magnitude = 0 ↔ magnitude = 0 := by
  unfold units
  split
  · exact Iff.rfl
  · next h =>
    have hbit : 0 < exponentBit := by decide
    rw [Nat.shiftLeft_eq]
    have hpos : 0 < (exponentBit + magnitude % exponentBit)
        * 2 ^ (magnitude / exponentBit - 1) :=
      Nat.mul_pos (by omega) (Nat.two_pow_pos _)
    omega

theorem le_log2_mul {a b k : Nat} (ha : 0 < a) (hb : 2 ^ k ≤ b) : k ≤ (a * b).log2 := by
  have hle : 2 ^ k ≤ a * b := Nat.le_trans hb (Nat.le_mul_of_pos_left _ ha)
  have hpos : 0 < 2 ^ k := Nat.two_pow_pos k
  exact (Nat.le_log2 (by omega)).mpr hle

/-- **The exact expansion of a magnitude reads back.** -/
theorem magnitude?_exactDecimal {magnitude : Nat} (h : magnitude < infinity) :
    (exactDecimal magnitude).magnitude? = some magnitude := by
  by_cases hzero : magnitude = 0
  · subst hzero
    decide +kernel
  · have hunits : 0 < units magnitude := Nat.pos_of_ne_zero (mt units_eq_zero_iff.mp hzero)
    have hscale : Nat.pow 10 (1073 + 1) = Nat.pow 5 1074 * unitsPerOne := by decide +kernel
    have hpos : 0 < Nat.pow 5 1074 := by decide +kernel
    have hexact : exactDecimal magnitude = ⟨units magnitude * Nat.pow 5 1074, .negSucc 1073⟩ := rfl
    -- there are too many digits for the expansion to be taken for zero
    have hlog : 2493 ≤ (units magnitude * Nat.pow 5 1074).log2 :=
      le_log2_mul hunits (by decide +kernel)
    have hne : units magnitude * Nat.pow 5 1074 ≠ 0 :=
      Nat.mul_ne_zero (Nat.ne_of_gt hunits) (Nat.ne_of_gt hpos)
    rw [hexact]
    -- The power has to stay a name from here on: it is too large to be computed with.
    generalize Nat.pow 5 1074 = five at *
    unfold Decimal.magnitude?
    rw [if_neg hne]
    dsimp only
    rw [if_neg (by omega), hscale, Nat.mul_comm (units magnitude), nearest_mul_mul hpos,
      nearest_units, finite?_of_lt h]

theorem readsBack_iff {magnitude : Nat} {d : Decimal} :
    readsBack magnitude d = true ↔ d.magnitude? = some magnitude := by
  simp [readsBack]

theorem readsBack_of_neighbour? {magnitude drop : Nat} {exact d : Decimal}
    (h : neighbour? magnitude exact drop = some d) : readsBack magnitude d = true := by
  unfold neighbour? at h
  dsimp only at h
  -- Each neighbour is taken only after it was read back, the lower one first.
  split at h
  · next hlower =>
    obtain rfl := Option.some.inj h
    exact (Bool.and_eq_true_iff.mp hlower).1
  · split at h
    · next hupper =>
      obtain rfl := Option.some.inj h
      exact hupper
    · exact nomatch h

theorem readsBack_shortestFrom {magnitude : Nat} {exact : Decimal}
    (h : readsBack magnitude exact = true) (drop : Nat) :
    readsBack magnitude (shortestFrom magnitude exact drop) = true := by
  induction drop with
  | zero => exact h
  | succ drop ih =>
    rw [shortestFrom]
    split
    · next hd => exact readsBack_of_neighbour? hd
    · exact ih

/-- **The decimal a magnitude is written as reads back.** -/
theorem magnitude?_shortestDecimal {magnitude : Nat} (h : magnitude < infinity) :
    (shortestDecimal magnitude).magnitude? = some magnitude := by
  unfold shortestDecimal
  split
  · next hzero =>
    subst hzero
    rfl
  · exact readsBack_iff.mp
      (readsBack_shortestFrom (readsBack_iff.mpr (magnitude?_exactDecimal h)) _)

end Binary64

/-- A decimal without places reads like the one with a zero behind its point. -/
theorem Decimal.magnitude?_tenths {digits n magnitude : Nat}
    (h : (⟨digits, .ofNat n⟩ : Decimal).magnitude? = some magnitude) :
    (⟨digits * Nat.pow 10 n * 10, -1⟩ : Decimal).magnitude? = some magnitude := by
  have hten : 0 < Nat.pow 10 n := Nat.pow_pos (by decide)
  unfold magnitude? at h ⊢
  dsimp only at h ⊢
  by_cases hzero : digits = 0
  · rw [if_pos hzero] at h
    rw [if_pos (by simp [hzero])]
    exact h
  · rw [if_neg hzero] at h
    have hne : digits * Nat.pow 10 n * 10 ≠ 0 := by
      have := Nat.mul_pos (Nat.pos_of_ne_zero hzero) hten
      omega
    rw [if_neg hne]
    split at h
    · exact nomatch h
    · have hexponent : (-1 : Int) = .negSucc 0 := rfl
      rw [hexponent]
      dsimp only
      rw [if_neg (by omega)]
      rw [← h, Nat.mul_comm (digits * Nat.pow 10 n) 10]
      -- The ratio is the same, so it is rounded to the same value.
      exact congrArg _ (Binary64.nearest_mul_mul (by decide) _ 1)

end Abacus
