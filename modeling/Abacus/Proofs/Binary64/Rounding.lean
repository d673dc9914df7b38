import Abacus.Binary64.Rounding

/-!
# Rounding what needs no rounding

Rounding depends on a ratio alone and not on the two numbers that it is given by, and a magnitude is
nearest to itself.

## Main results

* `Binary64.nearest_mul_mul` — a common factor does not matter.
* `Binary64.nearest_units` — **a magnitude is nearest to its own number of units.**
-/

namespace Abacus

theorem roundHalfEven_mul_mul {k : Nat} (hk : 0 < k) (n d : Nat) :
    roundHalfEven (k * n) (k * d) = roundHalfEven n d := by
  have hdiv : k * n / (k * d) = n / d := Nat.mul_div_mul_left n d hk
  have hmod : k * n % (k * d) = k * (n % d) := Nat.mul_mod_mul_left k n d
  have hlt : ∀ a b : Nat, k * a < k * b ↔ a < b := fun a b => Nat.mul_lt_mul_left hk
  simp only [roundHalfEven, hdiv, hmod, Nat.mul_left_comm 2 k, hlt]

namespace Binary64

theorem nearest_mul_mul {k : Nat} (hk : 0 < k) (n d : Nat) :
    nearest (k * n) (k * d) = nearest n d := by
  have hdiv : k * n * unitsPerOne / (k * d) = n * unitsPerOne / d := by
    rw [Nat.mul_assoc, Nat.mul_div_mul_left _ _ hk]
  simp only [nearest, hdiv]
  rw [Nat.mul_assoc k, Nat.shiftLeft_eq, Nat.shiftLeft_eq, Nat.mul_assoc k,
    roundHalfEven_mul_mul hk]

theorem unitsPerOne_pos : 0 < unitsPerOne := by decide +kernel

/-- A whole number of the steps that rounding measures with is not rounded. -/
theorem nearest_of_steps {n shift : Nat} (hlog : (n <<< shift).log2 - 52 = shift) :
    nearest (n <<< shift) unitsPerOne = shift * exponentBit + n := by
  have hpos := unitsPerOne_pos
  have hdiv : (n <<< shift) * unitsPerOne / unitsPerOne = n <<< shift := Nat.mul_div_cancel _ hpos
  have hsteps : (n <<< shift) * unitsPerOne = n * (unitsPerOne <<< shift) := by
    rw [Nat.shiftLeft_eq, Nat.shiftLeft_eq, Nat.mul_assoc, Nat.mul_comm (2 ^ shift)]
  have hstep : 0 < unitsPerOne <<< shift := by
    rw [Nat.shiftLeft_eq]
    exact Nat.mul_pos hpos (Nat.two_pow_pos _)
  -- The divisor divides what is rounded, and the quotient is `n`.
  simp only [nearest, hdiv, hlog]
  rw [hsteps, roundHalfEven_of_dvd hstep (Nat.dvd_mul_left ..), Nat.mul_div_cancel _ hstep]

theorem log2_le_of_lt_exponentBit {n : Nat} (h : n < exponentBit) : n.log2 ≤ 52 := by
  by_cases hn : n = 0
  · subst hn
    decide
  · have hlt : n < 2 ^ 52 := h
    exact Nat.le_of_lt ((Nat.log2_lt hn).mpr hlt)

/-- A leading bit above the fraction makes 53 bits. -/
theorem log2_shiftLeft_of_lt (shift : Nat) {fraction : Nat} (h : fraction < exponentBit) :
    ((exponentBit + fraction) <<< shift).log2 = 52 + shift := by
  have hbit : exponentBit = 2 ^ 52 := rfl
  have hle : 2 ^ 52 ≤ exponentBit + fraction := by omega
  have hlt : exponentBit + fraction < 2 ^ 53 := by omega
  have hne : (exponentBit + fraction) <<< shift ≠ 0 := by
    rw [Nat.shiftLeft_eq]
    exact Nat.mul_ne_zero (by omega) (Nat.pos_iff_ne_zero.mp (Nat.two_pow_pos shift))
  rw [Nat.log2_eq_iff hne, Nat.shiftLeft_eq]
  constructor
  · rw [Nat.pow_add]
    exact Nat.mul_le_mul_right _ hle
  · rw [Nat.add_right_comm, Nat.pow_add]
    exact Nat.mul_lt_mul_of_pos_right hlt (Nat.two_pow_pos shift)

/-- **A magnitude is nearest to its own number of units.** -/
theorem nearest_units (magnitude : Nat) : nearest (units magnitude) unitsPerOne = magnitude := by
  unfold units
  split
  · next h =>
    have hlog : (magnitude <<< 0).log2 - 52 = 0 :=
      Nat.sub_eq_zero_of_le (log2_le_of_lt_exponentBit h)
    simpa using nearest_of_steps hlog
  · -- With an exponent field the steps are those that the field counts in.
    next h =>
    have hbit : 0 < exponentBit := by decide
    have hfraction : magnitude % exponentBit < exponentBit := Nat.mod_lt _ hbit
    have hlog := log2_shiftLeft_of_lt (magnitude / exponentBit - 1) hfraction
    rw [nearest_of_steps (by omega)]
    obtain ⟨field, hfield⟩ : ∃ field, magnitude / exponentBit = field + 1 :=
      ⟨magnitude / exponentBit - 1,
        (Nat.succ_pred_eq_of_pos (Nat.div_pos (Nat.not_lt.mp h) hbit)).symm⟩
    have hmagnitude := Nat.div_add_mod magnitude exponentBit
    rw [hfield, Nat.mul_comm, Nat.succ_mul] at hmagnitude
    rw [hfield, Nat.add_sub_cancel]
    omega

end Binary64

end Abacus
