import Abacus.Proofs.Binary64.Rounding
import Mathlib

/-!
# Rounding is correct

The magnitudes are in the order of their patterns, and from the pattern of infinity on they go on as
they would if exponents had no bound.  What a ratio is rounded to is the nearest among all of them,
and half way between two it is the one whose last bit is zero.  So a ratio is rounded to a finite
magnitude if it is less than half way from the greatest one to what would follow.

## Main definitions

* `Binary64.value` — the number that a magnitude is.
* `Binary64.RoundsTo` — a number is rounded to a magnitude.

## Main results

* `Binary64.units_step`, `Binary64.units_strictMono` — **magnitudes in their order**.
* `Binary64.nearest_le_iff` — between two neighbours the middle decides.
* `Binary64.roundsTo_nearest`, `Binary64.RoundsTo.unique` — **rounding is correct.**
* `Binary64.RoundsTo.lt_infinity_iff` — what is rounded to a finite magnitude.
-/

namespace Abacus

/-- What is rounded is a whole number of steps, or one more if the remainder is half a step. -/
theorem roundHalfEven_le_div_iff (n d : Nat) : roundHalfEven n d ≤ n / d ↔
    2 * (n % d) < d ∨ 2 * (n % d) = d ∧ n / d % 2 = 0 := by
  unfold roundHalfEven
  split
  · next hlt => exact iff_of_true (Nat.le_refl _) (.inl hlt)
  · split <;> omega

theorem div_le_roundHalfEven (n d : Nat) : n / d ≤ roundHalfEven n d := by
  unfold roundHalfEven
  split
  · exact Nat.le_refl _
  · split <;> omega

theorem roundHalfEven_le_div_succ (n d : Nat) : roundHalfEven n d ≤ n / d + 1 := by
  unfold roundHalfEven
  split
  · omega
  · split <;> omega

namespace Binary64

variable {n d magnitude other shift steps : Nat} {q : ℚ}

/-! ### Magnitudes in their order -/

theorem exponentBit_pos : 0 < exponentBit := by decide

/-- A magnitude with an exponent field. -/
theorem units_field (field : Nat) {fraction : Nat} (h : fraction < exponentBit) :
    units ((field + 1) * exponentBit + fraction) = (exponentBit + fraction) * 2 ^ field := by
  have hbit := exponentBit_pos
  have hdiv : ((field + 1) * exponentBit + fraction) / exponentBit = field + 1 := by
    rw [Nat.mul_comm, Nat.mul_add_div hbit, Nat.div_eq_of_lt h, Nat.add_zero]
  have hmod : ((field + 1) * exponentBit + fraction) % exponentBit = fraction := by
    rw [Nat.mul_comm, Nat.mul_add_mod, Nat.mod_eq_of_lt h]
  have hle : ¬ (field + 1) * exponentBit + fraction < exponentBit := by
    rw [Nat.succ_mul]
    omega
  rw [units, if_neg hle, hdiv, hmod, Nat.add_sub_cancel, Nat.shiftLeft_eq]

/-- **The patterns count steps.**  In the steps of `1 <<< shift` units, a pattern is so many of them
as it is behind `shift * exponentBit`, up to one that doubles the first with a leading bit. -/
theorem units_step (hle : steps ≤ 2 * exponentBit) (hshift : shift = 0 ∨ exponentBit ≤ steps) :
    units (shift * exponentBit + steps) = steps * 2 ^ shift := by
  rcases Nat.lt_or_ge steps exponentBit with hlt | hge
  · obtain rfl : shift = 0 := hshift.resolve_right (Nat.not_le.mpr hlt)
    rw [Nat.zero_mul, Nat.zero_add, units, if_pos hlt, Nat.pow_zero, Nat.mul_one]
  · obtain ⟨fraction, rfl⟩ := Nat.exists_eq_add_of_le hge
    rcases Nat.lt_or_ge fraction exponentBit with hfraction | hdouble
    · rw [← Nat.add_assoc, ← Nat.succ_mul, units_field shift hfraction]
    · -- The last step carries into the exponent field.
      obtain rfl : fraction = exponentBit := by omega
      have hcarry := units_field (shift + 1) exponentBit_pos
      rw [Nat.add_zero, Nat.add_zero, Nat.succ_mul, Nat.succ_mul, Nat.add_assoc] at hcarry
      rw [hcarry, Nat.pow_succ]
      ring

/-- Every pattern counts steps of one size, and so does the one behind it. -/
theorem exists_steps (magnitude : Nat) : ∃ shift steps, magnitude = shift * exponentBit + steps ∧
    steps < 2 * exponentBit ∧ (shift = 0 ∨ exponentBit ≤ steps) := by
  have hbit := exponentBit_pos
  have hmod := Nat.mod_lt magnitude hbit
  have hmagnitude := Nat.div_add_mod magnitude exponentBit
  -- The field 0 is that of the subnormals, whose steps are as wide as those of the field 1.
  cases hfield : magnitude / exponentBit with
  | zero =>
    rw [hfield] at hmagnitude
    exact ⟨0, magnitude % exponentBit, by omega, by omega, .inl rfl⟩
  | succ field =>
    rw [hfield, Nat.mul_comm, Nat.succ_mul] at hmagnitude
    exact ⟨field, exponentBit + magnitude % exponentBit, by omega, by omega, .inr (by omega)⟩

theorem units_strictMono : StrictMono units := by
  refine strictMono_nat_of_lt_succ fun magnitude => ?_
  obtain ⟨shift, steps, rfl, hlt, hshift⟩ := exists_steps magnitude
  have hnext : shift = 0 ∨ exponentBit ≤ steps + 1 := hshift.imp_right fun h => by omega
  rw [Nat.add_assoc, units_step (Nat.le_of_lt hlt) hshift, units_step hlt hnext]
  exact Nat.mul_lt_mul_of_pos_right (Nat.lt_succ_self _) (Nat.two_pow_pos _)

/-! ### Between neighbours -/

/-- Rounding measures in steps of which there are as many as a pattern can count. -/
theorem steps_of_log2 (whole : Nat) :
    whole / 2 ^ (whole.log2 - 52) < 2 * exponentBit ∧
      (whole.log2 - 52 = 0 ∨ exponentBit ≤ whole / 2 ^ (whole.log2 - 52)) := by
  have hbit : exponentBit = 2 ^ 52 := rfl
  have hpos : 0 < 2 ^ (whole.log2 - 52) := Nat.two_pow_pos _
  -- The leading bit is moved to place 52, or stays where it is if it stands below.
  have hlt : whole < 2 ^ (whole.log2 + 1) := Nat.lt_log2_self
  rw [Nat.div_lt_iff_lt_mul hpos, Nat.le_div_iff_mul_le hpos, hbit, ← Nat.pow_succ', ← Nat.pow_add,
    ← Nat.pow_add]
  refine ⟨Nat.lt_of_lt_of_le hlt (Nat.pow_le_pow_right (by decide) (by omega)), ?_⟩
  rcases Nat.le_total whole.log2 52 with hsmall | hlarge
  · exact .inl (Nat.sub_eq_zero_of_le hsmall)
  · right
    rw [Nat.add_sub_cancel' hlarge]
    rcases Nat.eq_zero_or_pos whole with rfl | hwhole
    · exact absurd hlarge (by decide)
    · exact Nat.log2_self_le (Nat.ne_of_gt hwhole)

/-- **Between two neighbours the middle decides**, and at the middle the last bit. -/
theorem nearest_le_iff (hd : 0 < d) : nearest n d ≤ magnitude ↔
    2 * (n * unitsPerOne) < (units magnitude + units (magnitude + 1)) * d ∨
      2 * (n * unitsPerOne) = (units magnitude + units (magnitude + 1)) * d ∧
        magnitude % 2 = 0 := by
  unfold nearest
  dsimp only
  generalize n * unitsPerOne = scaled
  obtain ⟨hlt, hshift⟩ := steps_of_log2 (scaled / d)
  generalize (scaled / d).log2 - 52 = shift at hlt hshift ⊢
  rw [Nat.div_div_eq_div_mul] at hlt hshift
  rw [Nat.shiftLeft_eq]
  have hstep : 0 < d * 2 ^ shift := Nat.mul_pos hd (Nat.two_pow_pos _)
  have hscaled := Nat.div_add_mod scaled (d * 2 ^ shift)
  have hremainder := Nat.mod_lt scaled hstep
  have hround := roundHalfEven_le_div_iff scaled (d * 2 ^ shift)
  have hbelow := div_le_roundHalfEven scaled (d * 2 ^ shift)
  have habove := roundHalfEven_le_div_succ scaled (d * 2 ^ shift)
  generalize roundHalfEven scaled (d * 2 ^ shift) = rounded at *
  generalize scaled % (d * 2 ^ shift) = remainder at *
  generalize scaled / (d * 2 ^ shift) = steps at *
  -- The two neighbours around the ratio, and both as numbers of steps.
  have hlower := units_step (Nat.le_of_lt hlt) hshift
  have hupper : units (shift * exponentBit + steps + 1) = (steps + 1) * 2 ^ shift := by
    rw [Nat.add_assoc]
    exact units_step hlt (hshift.imp_right fun h => by omega)
  have hlowerd : units (shift * exponentBit + steps) * d = d * 2 ^ shift * steps := by
    rw [hlower]
    ring
  have hupperd : units (shift * exponentBit + steps + 1) * d
      = d * 2 ^ shift * steps + d * 2 ^ shift := by
    rw [hupper]
    ring
  have heven : (shift * exponentBit + steps) % 2 = steps % 2 := by
    have hbit : exponentBit % 2 = 0 := by decide
    rw [Nat.add_mod, Nat.mul_mod, hbit]
    simp
  rcases Nat.lt_trichotomy magnitude (shift * exponentBit + steps) with hless | rfl | hmore
  · have hmono := units_strictMono.monotone (Nat.succ_le_of_lt hless)
    have hmono' := units_strictMono (Nat.lt_succ_self magnitude)
    have hleft := Nat.mul_le_mul_right d hmono
    have hright := Nat.mul_lt_mul_of_pos_right hmono' hd
    rw [Nat.succ_eq_add_one] at hleft hright
    rw [Nat.add_mul]
    omega
  · rw [Nat.add_mul, hlowerd, hupperd, heven]
    omega
  · have hmono := units_strictMono.monotone (Nat.succ_le_of_lt hmore)
    have hmono' := units_strictMono (Nat.lt_succ_self magnitude)
    have hleft := Nat.mul_le_mul_right d hmono
    have hright := Nat.mul_lt_mul_of_pos_right hmono' hd
    rw [Nat.succ_eq_add_one] at hleft hright
    rw [Nat.add_mul]
    omega

/-! ### Rounding -/

/-- The number that a magnitude is; from infinity on, what it would be if exponents had no bound. -/
def value (magnitude : Nat) : ℚ := units magnitude / unitsPerOne

/-- The number is rounded to the magnitude: this is the nearest one, and of two nearest the one
whose last bit is zero. -/
def RoundsTo (q : ℚ) (magnitude : Nat) : Prop :=
  ∀ other, other ≠ magnitude →
    |q - value magnitude| < |q - value other| ∨
      |q - value magnitude| = |q - value other| ∧ magnitude % 2 = 0

theorem value_strictMono : StrictMono value := by
  intro magnitude other h
  have hpos : (0 : ℚ) < unitsPerOne := Nat.cast_pos.mpr unitsPerOne_pos
  exact div_lt_div_of_pos_right (Nat.cast_lt.mpr (units_strictMono h)) hpos

theorem value_zero : value 0 = 0 := by
  simp [value, units]

theorem value_nonneg (magnitude : Nat) : 0 ≤ value magnitude := by
  unfold value
  positivity

theorem value_eq_zero_iff : value magnitude = 0 ↔ magnitude = 0 := by
  rw [← value_zero, value_strictMono.injective.eq_iff]

section Middle

variable {a b : ℚ}

/-- Of two numbers the lesser one is nearer to what is below their middle, ... -/
theorem abs_sub_lt_abs_sub_iff (h : a < b) : |q - a| < |q - b| ↔ 2 * q < a + b := by
  rw [← sq_lt_sq]
  constructor <;> intro hlt <;> nlinarith

/-- ... and the greater one to what is above it. -/
theorem abs_sub_lt_abs_sub_iff' (h : a < b) : |q - b| < |q - a| ↔ a + b < 2 * q := by
  rw [← sq_lt_sq]
  constructor <;> intro hlt <;> nlinarith

theorem abs_sub_eq_abs_sub_iff (h : a < b) : |q - a| = |q - b| ↔ 2 * q = a + b := by
  rw [abs_eq_abs]
  constructor
  · rintro (heq | heq) <;> linarith
  · intro heq
    exact .inr (by linarith)

end Middle

/-- A number is rounded to a magnitude if it is on the right side of its middles with the others. -/
theorem roundsTo_iff : RoundsTo q magnitude ↔
    (∀ other, magnitude < other → 2 * q < value magnitude + value other ∨
      2 * q = value magnitude + value other ∧ magnitude % 2 = 0) ∧
    ∀ other, other < magnitude → value other + value magnitude < 2 * q ∨
      2 * q = value other + value magnitude ∧ magnitude % 2 = 0 := by
  -- The distance to a larger value is compared at the midpoint, and so is that to a smaller one.
  constructor
  · intro h
    constructor
    · intro other hlt
      have hvalue := value_strictMono hlt
      have hother := h other (Nat.ne_of_gt hlt)
      rwa [abs_sub_lt_abs_sub_iff hvalue, abs_sub_eq_abs_sub_iff hvalue] at hother
    · intro other hlt
      have hvalue := value_strictMono hlt
      have hother := h other (Nat.ne_of_lt hlt)
      rwa [abs_sub_lt_abs_sub_iff' hvalue, eq_comm, abs_sub_eq_abs_sub_iff hvalue] at hother
  · rintro ⟨habove, hbelow⟩ other hne
    rcases Nat.lt_or_gt_of_ne hne with hlt | hlt
    · have hvalue := value_strictMono hlt
      rw [abs_sub_lt_abs_sub_iff' hvalue, eq_comm, abs_sub_eq_abs_sub_iff hvalue]
      exact hbelow other hlt
    · have hvalue := value_strictMono hlt
      rw [abs_sub_lt_abs_sub_iff hvalue, abs_sub_eq_abs_sub_iff hvalue]
      exact habove other hlt

/-- **A number is rounded to one magnitude only**, since of two neighbours one has a last bit that
is not zero. -/
theorem RoundsTo.unique (h : RoundsTo q magnitude) (h' : RoundsTo q other) :
    magnitude = other := by
  wlog hlt : magnitude < other generalizing magnitude other
  · rcases Nat.lt_or_eq_of_le (Nat.not_lt.mp hlt) with hgt | heq
    · exact (this h' h hgt).symm
    · exact heq.symm
  exfalso
  have habove := (roundsTo_iff.mp h).1
  have hbelow := (roundsTo_iff.mp h').2 magnitude hlt
  -- The number is in the middle between the two, ...
  have hle : 2 * q ≤ value magnitude + value other :=
    (habove other hlt).elim le_of_lt fun htie => le_of_eq htie.1
  have hge : value magnitude + value other ≤ 2 * q :=
    hbelow.elim le_of_lt fun htie => ge_of_eq htie.1
  have heven : magnitude % 2 = 0 := ((habove other hlt).resolve_left (not_lt.mpr hge)).2
  have heven' : other % 2 = 0 := (hbelow.resolve_left (not_lt.mpr hle)).2
  -- ... and another magnitude between them is nearer.
  have hvalue : value (magnitude + 1) < value other := value_strictMono (by omega)
  rcases habove _ (Nat.lt_succ_self magnitude) with hnear | ⟨hnear, -⟩ <;> linarith

/-- The middle between two neighbours decides, in numbers. -/
theorem nearest_le_iff_value (hd : 0 < d) : nearest n d ≤ magnitude ↔
    2 * (n / d : ℚ) < value magnitude + value (magnitude + 1) ∨
      2 * (n / d : ℚ) = value magnitude + value (magnitude + 1) ∧ magnitude % 2 = 0 := by
  have hunits : (0 : ℚ) < unitsPerOne := Nat.cast_pos.mpr unitsPerOne_pos
  have hd' : (0 : ℚ) < d := Nat.cast_pos.mpr hd
  -- Both sides are brought to the denominator d · unitsPerOne, where the integers are compared.
  have hleft : 2 * (n / d : ℚ) = (2 * (n * unitsPerOne) : ℕ) / (d * unitsPerOne) := by
    push_cast
    field_simp
  have hright : value magnitude + value (magnitude + 1)
      = ((units magnitude + units (magnitude + 1)) * d : ℕ) / (d * unitsPerOne) := by
    unfold value
    push_cast
    field_simp
  have hpos : (0 : ℚ) < d * unitsPerOne := mul_pos hd' hunits
  rw [nearest_le_iff hd, hleft, hright, div_lt_div_iff_of_pos_right hpos, Nat.cast_lt,
    div_left_inj' (ne_of_gt hpos), Nat.cast_inj]

/-- **Rounding is correct**: a ratio is rounded to the nearest magnitude, and half way between two
to the one whose last bit is zero. -/
theorem roundsTo_nearest (hd : 0 < d) : RoundsTo (n / d) (nearest n d) := by
  refine roundsTo_iff.mpr ⟨fun other hlt => ?_, fun other hlt => ?_⟩
  · -- A greater magnitude is at least the next one.
    have hnext := value_strictMono.monotone (Nat.succ_le_of_lt hlt)
    rw [Nat.succ_eq_add_one] at hnext
    rcases (nearest_le_iff_value hd).mp (Nat.le_refl (nearest n d)) with hmiddle | ⟨htie, heven⟩
    · exact .inl (by linarith)
    · rcases hnext.lt_or_eq with hfar | hsame
      · exact .inl (by linarith)
      · exact .inr ⟨by rw [htie, hsame], heven⟩
  · -- A less one is at most the one before.
    obtain ⟨before, hbefore⟩ : ∃ before, nearest n d = before + 1 :=
      ⟨nearest n d - 1, by omega⟩
    have hnot := mt (nearest_le_iff_value (n := n) hd).mpr (by omega : ¬ nearest n d ≤ before)
    rw [not_or, not_lt, not_and] at hnot
    obtain ⟨hmiddle, hodd⟩ := hnot
    rw [hbefore]
    have hprevious : value other ≤ value before := value_strictMono.monotone (by omega)
    rcases hprevious.lt_or_eq with hfar | hsame
    · exact .inl (by linarith)
    · rw [hsame]
      rcases hmiddle.lt_or_eq with hless | htie
      · exact .inl hless
      · exact .inr ⟨htie.symm, by have := hodd htie.symm; omega⟩

/-- What is a magnitude is rounded to this one. -/
theorem roundsTo_value (magnitude : Nat) : RoundsTo (value magnitude) magnitude := by
  intro other hne
  left
  rw [sub_self, abs_zero, abs_pos, sub_ne_zero]
  intro h
  exact hne (value_strictMono.injective h).symm

/-- Every number from zero on is rounded to a magnitude. -/
theorem exists_roundsTo (h : 0 ≤ q) : ∃ magnitude, RoundsTo q magnitude := by
  have hnum : ((q.num.natAbs : ℕ) : ℚ) = q.num := by
    rw [← Int.cast_natCast, Int.natAbs_of_nonneg (Rat.num_nonneg.mpr h)]
  have hrounds := roundsTo_nearest (n := q.num.natAbs) q.den_pos
  rw [hnum, Rat.num_div_den] at hrounds
  exact ⟨_, hrounds⟩

/-! ### Finite magnitudes -/

/-- The number half way between the greatest finite magnitude and what would follow it. -/
def overflowBound : ℚ := 2 ^ 1024 - 2 ^ 970

theorem value_of_units {whole exponent : Nat}
    (h : units magnitude = whole * 2 ^ exponent * unitsPerOne) :
    value magnitude = whole * 2 ^ exponent := by
  have hunits : (unitsPerOne : ℚ) ≠ 0 := Nat.cast_ne_zero.mpr (Nat.ne_of_gt unitsPerOne_pos)
  rw [value, h, Nat.cast_mul, Nat.cast_mul, Nat.cast_pow, Nat.cast_ofNat,
    mul_div_cancel_right₀ _ hunits]

/-- Half way from the greatest finite magnitude to what would follow it. -/
theorem value_add_value_infinity : value (infinity - 1) + value infinity = 2 * overflowBound := by
  have hgreatest : value (infinity - 1) = (0x1FFFFFFFFFFFFF : ℕ) * 2 ^ 971 :=
    value_of_units (by decide +kernel)
  have hnext : value infinity = (0x20000000000000 : ℕ) * 2 ^ 971 :=
    value_of_units (by decide +kernel)
  have hsmall : (2 : ℚ) ^ 971 = 2 * 2 ^ 970 := pow_succ' 2 970
  have hlarge : (2 : ℚ) ^ 1024 = 2 ^ 54 * 2 ^ 970 := by rw [← pow_add]
  rw [hgreatest, hnext, overflowBound, hsmall, hlarge, Nat.cast_ofNat, Nat.cast_ofNat]
  -- The power has to stay a name: it is too large to be computed with.
  generalize (2 : ℚ) ^ 970 = halfStep
  ring

/-- **What is rounded to a finite magnitude** is less than half way from the greatest one to what
would follow it: the last bit of the greatest is one. -/
theorem RoundsTo.lt_infinity_iff (h : RoundsTo q magnitude) :
    magnitude < infinity ↔ q < overflowBound := by
  have hbound := value_add_value_infinity
  obtain ⟨habove, hbelow⟩ := roundsTo_iff.mp h
  constructor
  · intro hlt
    have hgreatest : value magnitude ≤ value (infinity - 1) :=
      value_strictMono.monotone (Nat.le_sub_one_of_lt hlt)
    rcases habove infinity hlt with hmiddle | ⟨htie, heven⟩
    · linarith
    · rcases hgreatest.lt_or_eq with hless | hsame
      · linarith
      · -- A tie goes to the even pattern, and the greatest finite one is odd.
        have hodd : (infinity - 1) % 2 = 1 := by decide
        have heq := value_strictMono.injective hsame
        omega
  · intro hq
    by_contra hge
    have hinfinity : value infinity ≤ value magnitude :=
      value_strictMono.monotone (Nat.not_lt.mp hge)
    have hless : infinity - 1 < magnitude := by
      have hpos : 0 < infinity := by decide
      omega
    -- Below the bound the greatest finite value would be nearer.
    rcases hbelow _ hless with hmiddle | ⟨htie, -⟩ <;> linarith

end Binary64

end Abacus
