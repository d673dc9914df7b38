/-!
# Binary64 numbers

A float is not a number at all, or an infinity, or a sign and a *magnitude*.  A magnitude is kept as
the lower 63 bits of the float's pattern: an exponent field of 11 bits above a fraction of 52.
Patterns are in the order of the numbers they stand for, the first one past the finite ones is
infinity, and every finite magnitude is a whole number of *units*, the unit being the least positive
number, one part in `1 <<< 1074` of one.

## Main definitions

* `Binary64` — what a float is; `Binary64.ofFloat` and `Binary64.toFloat` pass to and from `Float`.
* `Binary64.units` — a finite magnitude as a number of units.
* `Binary64.unitsPerOne` — the number of units that make one.
-/

namespace Abacus

/-- What a float is. -/
inductive Binary64
  | nan
  | infinite (negative : Bool)
  | finite (negative : Bool) (magnitude : Nat)
  deriving DecidableEq, Repr

namespace Binary64

/-- The number of units that make one; the unit is the least positive number. -/
def unitsPerOne : Nat := 1 <<< 1074

/-- The lowest bit of the exponent field, the one next above the fraction. -/
def exponentBit : Nat := 0x0010000000000000

/-- The pattern of infinity, the first past those of the finite magnitudes. -/
def infinity : Nat := 0x7FF0000000000000

/-- The usual pattern, of many, of what is not a number. -/
def quietNaN : Nat := 0x7FF8000000000000

/-- The bit that marks a negative number. -/
def signBit : Nat := 0x8000000000000000

/-- A finite magnitude in units.  With an exponent field of zero the fraction counts units; each
field from one on adds a leading bit to the fraction and doubles what the field below counts. -/
def units (magnitude : Nat) : Nat :=
  if magnitude < exponentBit then magnitude
  else (exponentBit + magnitude % exponentBit) <<< (magnitude / exponentBit - 1)

/-- What the float with a given pattern is. -/
def ofPattern (pattern : Nat) : Binary64 :=
  let negative := decide (signBit ≤ pattern)
  let magnitude := pattern % signBit
  if magnitude < infinity then finite negative magnitude
  else if magnitude = infinity then infinite negative
  else nan

/-- The pattern of a float. -/
def toPattern : Binary64 → Nat
  | nan => quietNaN
  | infinite negative => infinity + if negative then signBit else 0
  | finite negative magnitude => magnitude + if negative then signBit else 0

/-- What a float is. -/
def ofFloat (x : Float) : Binary64 := ofPattern x.toBits.toNat

/-- The float that is so. -/
def toFloat (x : Binary64) : Float := Float.ofBits (UInt64.ofNat x.toPattern)

theorem infinity_lt_signBit : infinity < signBit := by decide

/-! ### Patterns and back -/

/-- The sign bit is what tells a negative pattern. -/
theorem signBit_le_add_iff {magnitude : Nat} (h : magnitude < signBit) (negative : Bool) :
    (signBit ≤ magnitude + if negative then signBit else 0) ↔ negative = true := by
  cases negative with
  | false => exact iff_of_false (Nat.not_le.2 h) Bool.false_ne_true
  | true => exact iff_of_true (Nat.le_add_left ..) rfl

/-- The bits below the sign bit are the magnitude. -/
theorem add_mod_signBit {magnitude : Nat} (h : magnitude < signBit) (negative : Bool) :
    (magnitude + if negative then signBit else 0) % signBit = magnitude := by
  cases negative with
  | false => exact Nat.mod_eq_of_lt h
  | true => exact (Nat.add_mod_right ..).trans (Nat.mod_eq_of_lt h)

theorem ofPattern_toPattern_finite (negative : Bool) {magnitude : Nat} (h : magnitude < infinity) :
    ofPattern (finite negative magnitude).toPattern = finite negative magnitude := by
  have hs := Nat.lt_trans h infinity_lt_signBit
  have hn := Bool.eq_iff_iff.2 (decide_eq_true_iff.trans (signBit_le_add_iff hs negative))
  unfold ofPattern toPattern
  rw [hn, add_mod_signBit hs, if_pos h]

end Binary64

end Abacus
