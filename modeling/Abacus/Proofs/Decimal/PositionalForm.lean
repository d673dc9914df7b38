import Abacus.Proofs.Binary64.ReadingBack
import Abacus.Proofs.Decimal.Numerals

/-!
# The positional form

The positional form of a decimal is digits, a point, and digits; there is at least one on each side.
As a numeral it spells the decimal, or the same number with one more zero at its end.

## Main results

* `Decimal.exists_chars_eq` — the parts of the positional form, and what they spell.
* `Numeral.ofChars?_of_digits` — digits with a point among them are a numeral.
* `Decimal.exists_ofChars?_chars` — **the positional form is a numeral of the same magnitude**.
-/

namespace Abacus

/-! ### Digits -/

theorem isDigit_of_mem_toDigits {n : Nat} {c : Char} (h : c ∈ Nat.toDigits 10 n) :
    c.isDigit = true :=
  Nat.isDigit_of_mem_toDigits (by decide) (by decide) h

@[simp] theorem ofDigits_toDigits (n : Nat) : ofDigits (Nat.toDigits 10 n) = n :=
  Nat.ofDigitChars_ten_toDigits

theorem ofDigits_append (cs ds : List Char) :
    ofDigits (cs ++ ds) = 10 ^ ds.length * ofDigits cs + ofDigits ds := by
  unfold ofDigits
  rw [Nat.ofDigitChars_append, Nat.ofDigitChars_eq_ofDigitChars_zero]

section Padding

variable {width n : Nat}

theorem isDigit_of_mem_paddedDigits {c : Char} (h : c ∈ paddedDigits width n) :
    c.isDigit = true := by
  rcases List.mem_append.mp h with hzero | hdigit
  · rw [List.eq_of_mem_replicate hzero]
    rfl
  · exact isDigit_of_mem_toDigits hdigit

theorem ofDigits_paddedDigits : ofDigits (paddedDigits width n) = n := by
  unfold paddedDigits List.leftpad
  rw [ofDigits_append, ofDigits_toDigits]
  simp [ofDigits]

/-- What is filled up has the width asked for, if it has no more digits than that. -/
theorem length_paddedDigits (h : n < 10 ^ (width + 1)) :
    (paddedDigits (width + 1) n).length = width + 1 := by
  have hle := (Nat.length_toDigits_le_iff (by decide) (Nat.succ_pos width)).mpr h
  rw [paddedDigits, List.length_leftpad]
  omega

end Padding

/-! ### Numerals of the positional form -/

namespace Numeral

theorem ofChars?_of_digits {whole fraction : List Char} (hne : whole ≠ [])
    (hwhole : ∀ c ∈ whole, c.isDigit = true) (hfraction : ∀ c ∈ fraction, c.isDigit = true) :
    ofChars? (whole ++ '.' :: fraction) = some ⟨false, whole, fraction, 0⟩ := by
  refine ofChars?_eq_some_iff.mpr ⟨[], whole ++ '.' :: fraction, [], ?_, .none, ?_, .none⟩
  · simp
  · exact .behind ⟨hne, hwhole⟩ hfraction

end Numeral

namespace Decimal

/-- The parts of the positional form.  They spell the decimal itself, or a number of tenths. -/
theorem exists_chars_eq (d : Decimal) :
    ∃ whole fraction, d.chars = whole ++ '.' :: fraction ∧ whole ≠ [] ∧
      (∀ c ∈ whole, c.isDigit = true) ∧ (∀ c ∈ fraction, c.isDigit = true) ∧
      ((⟨false, whole, fraction, 0⟩ : Numeral).decimal = d ∨
        ∃ n, d.exponent = .ofNat n ∧
          (⟨false, whole, fraction, 0⟩ : Numeral).decimal
            = ⟨d.digits * Nat.pow 10 n * 10, -1⟩) := by
  obtain ⟨digits, exponent⟩ := d
  cases exponent with
  | ofNat n =>
    -- There are no places, and the zero that is written behind the point makes it tenths.
    refine ⟨Nat.toDigits 10 (digits * Nat.pow 10 n), ['0'], rfl, Nat.toDigits_ne_nil,
      fun c => isDigit_of_mem_toDigits, by simp, .inr ⟨n, rfl, ?_⟩⟩
    rw [Numeral.decimal, ofDigits_append, ofDigits_toDigits, Nat.mul_comm]
    rfl
  | negSucc n =>
    -- The digits are cut where the point stands, and the places are filled up with zeros.
    have hscale : 0 < 10 ^ (n + 1) := Nat.pow_pos (by decide)
    have hwidth := length_paddedDigits (Nat.mod_lt digits hscale)
    refine ⟨Nat.toDigits 10 (digits / 10 ^ (n + 1)), paddedDigits (n + 1) (digits % 10 ^ (n + 1)),
      rfl, Nat.toDigits_ne_nil, fun c => isDigit_of_mem_toDigits,
      fun c => isDigit_of_mem_paddedDigits, .inl ?_⟩
    rw [Numeral.decimal, ofDigits_append, ofDigits_toDigits, ofDigits_paddedDigits, hwidth,
      Nat.div_add_mod]
    simp only [Decimal.mk.injEq, true_and]
    omega

/-- **The positional form is a numeral of the same magnitude.** -/
theorem exists_ofChars?_chars {d : Decimal} {magnitude : Nat} (h : d.magnitude? = some magnitude) :
    ∃ numeral, Numeral.ofChars? d.chars = some numeral ∧ numeral.negative = false ∧
      numeral.decimal.magnitude? = some magnitude := by
  obtain ⟨whole, fraction, hchars, hne, hwhole, hfraction, hdecimal⟩ := d.exists_chars_eq
  refine ⟨⟨false, whole, fraction, 0⟩, ?_, rfl, ?_⟩
  · rw [hchars]
    exact Numeral.ofChars?_of_digits hne hwhole hfraction
  · rcases hdecimal with hsame | ⟨n, hexponent, htenths⟩
    · rw [hsame]
      exact h
    · rw [htenths]
      refine magnitude?_tenths ?_
      rw [← hexponent]
      exact h

end Decimal

end Abacus
