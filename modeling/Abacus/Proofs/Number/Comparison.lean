import Abacus.Number.Basic
import Abacus.Proofs.Binary64.ExactValues

/-!
# Comparison by value

Two integers are compared exactly, but an integer and a float are compared as floats, and not every
integer is one: beyond 53 bits an integer may be rounded to a float that is another number, and it is
equal to this float all the same.  So two different integers can be equal to one float.  This is all
that is to be said against the comparison: where no integer is rounded away, it compares values.

## Main definitions

* `Number.exactValue?` — the exact value of a number.
* `Number.RoundsAway` — an integer is rounded to a float that is another number.

## Main results

* `Number.sameValue_iff_toFloat`, `Number.sameValue_trans_iff` — what is compared, and when two
  numbers that are equal to a third one are equal.
* `Number.sameValue_iff` — **numbers are equal if they have one value, or if one is rounded away to
  the other.**
* `Number.not_roundsAway_of_natAbs_le` — integers of 53 bits are not rounded away.
* `sameValue_up_to_rounding` — **the comparison is by value up to rounding.**
-/

namespace Abacus

open Binary64

namespace Number

/-- Whether the number is a float that is no number. -/
def isNaN : Number → Bool
  | integer _ => false
  | float x => x.isNaN

/-- The exact value of a number, if it is one. -/
def exactValue? : Number → Option ExactValue
  | integer n => some (.rational n.toInt)
  | float x => (ofFloat x).exactValue?

/-- The integer is rounded to the float, and the float is another number. -/
def RoundsAway : Number → Number → Prop
  | integer n, float x => ∃ magnitude, RoundsTo n.toInt.natAbs magnitude ∧
      value magnitude ≠ n.toInt.natAbs ∧
      (float x).exactValue? = some (.rational (signedValue (decide (n.toInt < 0)) magnitude))
  | _, _ => False

variable {a b c : Number} {n : Int64} {x : Float}

/-! ### Integers as floats -/

theorem natAbs_lt_overflowBound (n : Int64) : (n.toInt.natAbs : ℚ) < overflowBound := by
  have hle : n.toInt.natAbs ≤ 2 ^ 63 := by
    have hlower := n.le_toInt
    have hupper := n.toInt_lt
    omega
  have hle' : (n.toInt.natAbs : ℚ) ≤ 2 ^ 63 := by exact_mod_cast hle
  have hstep : (2 : ℚ) ^ 63 ≤ 2 ^ 970 := pow_le_pow_right₀ (by norm_num) (by decide)
  have hlarge : (2 : ℚ) ^ 1024 = 2 ^ 54 * 2 ^ 970 := by rw [← pow_add]
  rw [overflowBound, hlarge]
  clear hlarge
  -- The power has to stay a name: it is too large to be computed with.
  generalize (2 : ℚ) ^ 970 = step at *
  linarith

theorem roundsTo_nearest_one (n : Nat) : RoundsTo n (nearest n 1) := by
  simpa using roundsTo_nearest (n := n) Nat.one_pos

/-- The sign of an integer and the magnitude that it is rounded to are a float. -/
theorem exactValue?_floatOfInteger (n : Int64) : (ofFloat (floatOfInteger n)).exactValue?
    = some (.rational (signedValue (decide (n.toInt < 0)) (nearest n.toInt.natAbs 1))) := by
  have hfinite : nearest n.toInt.natAbs 1 < infinity :=
    (roundsTo_nearest_one _).lt_infinity_iff.mpr (natAbs_lt_overflowBound n)
  have hfloat : ofFloat (floatOfInteger n)
      = finite (decide (n.toInt < 0)) (nearest n.toInt.natAbs 1) := ofFloat_toFloat _ hfinite
  rw [hfloat, Binary64.exactValue?]

theorem exactValue?_eq_none_iff : a.exactValue? = none ↔ a.isNaN = true := by
  cases a with
  | integer n => simp [exactValue?, isNaN]
  | float x => rw [exactValue?, isNaN, Binary64.exactValue?_eq_none_iff, isNaN_iff]

/-- What is a number has a value as a float. -/
theorem exists_exactValue?_toFloat (h : a.isNaN = false) :
    ∃ w, (ofFloat a.toFloat).exactValue? = some w := by
  cases a with
  | integer n => exact ⟨_, exactValue?_floatOfInteger n⟩
  | float x =>
    have hnumber : (float x).exactValue? ≠ none := by
      intro hnone
      rw [exactValue?_eq_none_iff.mp hnone] at h
      exact Bool.noConfusion h
    exact Option.ne_none_iff_exists'.mp hnumber

/-! ### What is compared -/

/-- **Numbers are equal** if they are the same number as floats, and integers only if they are one
and the same. -/
theorem sameValue_iff_toFloat : sameValue a b = true ↔
    (∃ w, (ofFloat a.toFloat).exactValue? = some w ∧ (ofFloat b.toFloat).exactValue? = some w) ∧
      (a.isInteger = true → b.isInteger = true → a = b) := by
  cases a with
  | integer m =>
    cases b with
    | integer n =>
      have hsame : sameValue (integer m) (integer n) = true ↔ m = n := beq_iff_eq
      rw [hsame]
      constructor
      · rintro rfl
        -- Two integers are compared as they are, without rounding.
        have hvalue := exactValue?_floatOfInteger m
        exact ⟨⟨_, hvalue, hvalue⟩, fun _ _ => rfl⟩
      · rintro ⟨-, h⟩
        exact Number.integer.inj (h rfl rfl)
    | float y => exact beq_iff_exactValue?.trans (and_iff_left fun _ h => nomatch h).symm
  | float x =>
    have hsame : sameValue (float x) b = Float.beq x b.toFloat := by cases b <;> rfl
    rw [hsame]
    exact beq_iff_exactValue?.trans (and_iff_left fun h => nomatch h).symm

theorem sameValue_self (h : a.isNaN = false) : sameValue a a = true := by
  obtain ⟨w, hw⟩ := exists_exactValue?_toFloat h
  rw [sameValue_iff_toFloat]
  exact ⟨⟨w, hw, hw⟩, fun _ _ => rfl⟩

theorem sameValue_comm (a b : Number) : sameValue a b = sameValue b a := by
  rw [Bool.eq_iff_iff, sameValue_iff_toFloat, sameValue_iff_toFloat]
  apply and_congr
  · simp only [and_comm]
  · rw [forall_comm]
    simp only [eq_comm]

/-- **Numbers that are equal to a third one are equal**, unless they are different integers. -/
theorem sameValue_trans_iff (hab : sameValue a b = true) (hbc : sameValue b c = true) :
    sameValue a c = true ↔ (a.isInteger = true → c.isInteger = true → a = c) := by
  rw [sameValue_iff_toFloat] at hab hbc ⊢
  obtain ⟨⟨w, ha, hb⟩, -⟩ := hab
  obtain ⟨⟨w', hb', hc⟩, -⟩ := hbc
  obtain rfl : w = w' := Option.some.inj (hb.symm.trans hb')
  exact and_iff_right ⟨w, ha, hc⟩

/-! ### Values -/

/-- Only to a float anything is rounded. -/
theorem RoundsAway.isInteger_eq_false (h : a.RoundsAway b) : b.isInteger = false := by
  cases b with
  | integer n => cases a <;> exact h.elim
  | float x => rfl

theorem RoundsAway.exactValue?_ne (h : a.RoundsAway b) : a.exactValue? ≠ b.exactValue? := by
  cases a with
  | float x => exact h.elim
  | integer n =>
    cases b with
    | integer m => exact h.elim
    | float x =>
      -- The float is what the integer rounds to, which is by assumption another value.
      obtain ⟨magnitude, -, hne, hx⟩ := h
      rw [hx]
      intro hvalue
      have hvalue' := ExactValue.rational.inj (Option.some.inj hvalue)
      exact hne (value_eq_of_signedValue_eq hvalue'.symm)

/-- **An integer is equal to a float** that it is, or that it is rounded to. -/
theorem sameValue_integer_float_iff : sameValue (integer n) (float x) = true ↔
    (integer n).exactValue? = (float x).exactValue? ∨ (integer n).RoundsAway (float x) := by
  have hrounds := roundsTo_nearest_one n.toInt.natAbs
  have hsame : sameValue (integer n) (float x) = true ↔
      ∃ w, (ofFloat (floatOfInteger n)).exactValue? = some w ∧ (float x).exactValue? = some w :=
    beq_iff_exactValue?
  rw [hsame, exactValue?_floatOfInteger]
  constructor
  · rintro ⟨w, hw, hx⟩
    rw [← hw] at hx
    by_cases hexact : value (nearest n.toInt.natAbs 1) = n.toInt.natAbs
    · left
      rw [hx, signedValue_of_value_eq hexact]
      rfl
    · right
      exact ⟨_, hrounds, hexact, hx⟩
  · rintro (hx | ⟨magnitude, hmagnitude, -, hx⟩)
    · -- The float has a magnitude then, and to this one the integer is rounded.
      obtain ⟨s, magnitude, hfloat, hsigned⟩ := exactValue?_eq_some_rational_iff.mp hx.symm
      have hvalue := value_eq_of_signedValue_eq hsigned
      have hmagnitude := roundsTo_value magnitude
      rw [hvalue] at hmagnitude
      obtain rfl := hrounds.unique hmagnitude
      refine ⟨_, rfl, hx.symm.trans ?_⟩
      rw [signedValue_of_value_eq hvalue]
      rfl
    · obtain rfl := hrounds.unique hmagnitude
      exact ⟨_, rfl, hx⟩

/-- **Numbers are equal if they have one value, or if one is rounded away to the other.** -/
theorem sameValue_iff (ha : a.isNaN = false) (hb : b.isNaN = false) : sameValue a b = true ↔
    a.exactValue? = b.exactValue? ∨ a.RoundsAway b ∨ b.RoundsAway a := by
  -- Numbers of one kind are compared by value, so nothing is rounded away between them.
  cases a with
  | integer m =>
    cases b with
    | integer n =>
      have hsame : sameValue (integer m) (integer n) = true ↔ m = n := beq_iff_eq
      simp [hsame, exactValue?, RoundsAway, Int64.toInt_inj]
    | float y =>
      rw [sameValue_integer_float_iff]
      exact or_congr_right (or_iff_left not_false).symm
  | float x =>
    cases b with
    | integer n =>
      rw [sameValue_comm, sameValue_integer_float_iff, eq_comm]
      exact or_congr_right (or_iff_right not_false).symm
    | float y =>
      obtain ⟨w, hw⟩ := exists_exactValue?_toFloat ha
      have hsame : sameValue (float x) (float y) = true ↔
          ∃ w, (float x).exactValue? = some w ∧ (float y).exactValue? = some w :=
        beq_iff_exactValue?
      have hx : (float x).exactValue? = some w := hw
      simp [hsame, hx, RoundsAway, eq_comm]

/-- Integers of 53 bits are not rounded away. -/
theorem not_roundsAway_of_natAbs_le (h : n.toInt.natAbs ≤ 2 ^ 53) :
    ¬ (integer n).RoundsAway b := by
  cases b with
  | integer m => exact id
  | float x =>
    rintro ⟨magnitude, hrounds, hne, -⟩
    obtain ⟨whole, hwhole⟩ := exists_value_eq h
    have hself := roundsTo_value whole
    rw [hwhole] at hself
    obtain rfl := hrounds.unique hself
    exact hne hwhole

end Number

open Number

/-- **The comparison is by value up to rounding.**  Numbers with one value are equal; it is exactly
where an integer is rounded away to the float that it is compared with that others are equal, too.
Two numbers that are equal to a third one are equal unless they are different integers, and one of
these is rounded away then.  Integers of 53 bits never are. -/
theorem sameValue_up_to_rounding {a b c : Number} (ha : a.isNaN = false) (hb : b.isNaN = false)
    (hc : c.isNaN = false) :
    sameValue a a = true ∧
    sameValue a b = sameValue b a ∧
    (a.exactValue? = b.exactValue? → sameValue a b = true) ∧
    ((sameValue a b = true ↔ a.exactValue? = b.exactValue?) ↔
      ¬ a.RoundsAway b ∧ ¬ b.RoundsAway a) ∧
    (sameValue a b = true → sameValue b c = true →
      (sameValue a c = true ↔ (a.isInteger = true → c.isInteger = true → a = c)) ∧
      (¬ a.RoundsAway b → ¬ c.RoundsAway b → sameValue a c = true)) ∧
    ∀ n, a = integer n → n.toInt.natAbs ≤ 2 ^ 53 → ¬ a.RoundsAway b := by
  have hab := sameValue_iff ha hb
  have hbc := sameValue_iff hb hc
  refine ⟨sameValue_self ha, sameValue_comm a b, fun h => hab.mpr (.inl h), ?_, ?_, ?_⟩
  · constructor
    · intro h
      constructor <;> intro haway
      · exact haway.exactValue?_ne (h.mp (hab.mpr (.inr (.inl haway))))
      · exact haway.exactValue?_ne (h.mp (hab.mpr (.inr (.inr haway)))).symm
    · rintro ⟨haway, haway'⟩
      rw [hab]
      simp [haway, haway']
  · intro hsame hsame'
    have htrans := sameValue_trans_iff hsame hsame'
    refine ⟨htrans, ?_⟩
    intro haway haway'
    -- Either the three have one value, or one of the outer two is a float.
    rcases (hab.mp hsame).imp_right (Or.resolve_left · haway) with hvalue | hfloat
    · rcases (hbc.mp hsame').imp_right (Or.resolve_right · haway') with hvalue' | hfloat
      · exact (sameValue_iff ha hc).mpr (.inl (hvalue.trans hvalue'))
      · rw [htrans, hfloat.isInteger_eq_false]
        exact fun _ h => nomatch h
    · rw [htrans, hfloat.isInteger_eq_false]
      exact fun h => nomatch h
  · rintro n rfl hn
    exact not_roundsAway_of_natAbs_le hn

/-- One past 53 bits an integer is rounded away: the float is equal to two integers. -/
theorem sameValue_up_to_rounding_past_53_bits :
    (integer 9007199254740993).isNaN = false ∧ (float 9007199254740992.0).isNaN = false ∧
      (integer 9007199254740992).isNaN = false ∧
      (integer 9007199254740993).RoundsAway (float 9007199254740992.0) := by
  have hfloat : (float 9007199254740992.0).isNaN = false := by decide +kernel
  have hsame : sameValue (integer 9007199254740993) (float 9007199254740992.0) = true := by
    decide +kernel
  have hsame' : sameValue (float 9007199254740992.0) (integer 9007199254740992) = true := by
    decide +kernel
  obtain ⟨-, -, -, -, htrans, -⟩ := sameValue_up_to_rounding
    (a := integer 9007199254740993) (c := integer 9007199254740992) rfl hfloat rfl
  obtain ⟨-, -, -, -, -, hsmall⟩ := sameValue_up_to_rounding
    (a := integer 9007199254740992) (c := integer 9007199254740992) rfl hfloat rfl
  refine ⟨rfl, hfloat, rfl, ?_⟩
  -- Else 2 ^ 53 + 1 and 2 ^ 53 would be equal, as both compare equal to the float.
  by_contra haway
  have hequal := (htrans hsame hsame').2 haway (hsmall _ rfl (by decide))
  exact absurd hequal (by decide)

/-- **Equal numbers need not have one value**, and numbers that are equal to a third one need not be
equal. -/
theorem not_sameValue_by_value :
    sameValue (integer 9007199254740993) (float 9007199254740992.0) = true ∧
      (integer 9007199254740993).exactValue? ≠ (float 9007199254740992.0).exactValue? ∧
      sameValue (float 9007199254740992.0) (integer 9007199254740992) = true ∧
      sameValue (integer 9007199254740993) (integer 9007199254740992) = false := by
  decide +kernel

end Abacus
