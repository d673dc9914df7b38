import Abacus.Proofs.Number.Literals
import Abacus.Proofs.Token.FirstFaults

/-!
# Runs that are numbers

In a text that is scanned, what begins with a digit has no sign, and it can have none in its
exponent either, since a sign ends the run.  So fewer forms of numerals are left there than there
are literals.

## Main definitions

* `IsFloatRun` — the forms of a numeral that are left to a run of number characters.
* `IsNumberRun` — the runs that are numbers.
* `nonFiniteWords` — the words for infinity and for what is not a number.

## Main results

* `isSpelled_iff_isFloatRun` — the numerals among the runs.
* `Cursor.scan_run_iff`, `lex_run_iff` — **the runs that are scanned as numbers**.
* `literals_exact` — **the literals are the texts of their grammar with a value in range.**
-/

namespace Abacus

open Binary64

/-- The forms of a numeral that begins with a digit, has a point or an exponent or both, and has no
sign; and the parts of the numeral. -/
inductive IsFloatRun : List Char → Numeral → Prop
  | point {whole fraction : List Char} :
      IsDigits whole → (∀ c ∈ fraction, c.isDigit = true) →
      IsFloatRun (whole ++ '.' :: fraction) ⟨false, whole, fraction, 0⟩
  | pointExponent {e : Char} {whole fraction digits : List Char} :
      IsDigits whole → (∀ c ∈ fraction, c.isDigit = true) → e = 'e' ∨ e = 'E' → IsDigits digits →
      IsFloatRun (whole ++ '.' :: (fraction ++ e :: digits))
        ⟨false, whole, fraction, ofDigits digits⟩
  | exponent {e : Char} {whole digits : List Char} :
      IsDigits whole → e = 'e' ∨ e = 'E' → IsDigits digits →
      IsFloatRun (whole ++ e :: digits) ⟨false, whole, [], ofDigits digits⟩

/-- The runs of number characters that are numbers. -/
def IsNumberRun (cs : List Char) : Prop :=
  IsIntegerLiteral cs ∨ ∃ numeral : Numeral, IsFloatRun cs numeral ∧ numeral.IsFinite

/-- The words for infinity and for what is not a number, in lower case. -/
def nonFiniteWords : List (List Char) :=
  [['i', 'n', 'f'], ['i', 'n', 'f', 'i', 'n', 'i', 't', 'y'], ['n', 'a', 'n']]

variable {c : Char} {cs run rest sign : List Char} {negative : Bool} {numeral : Numeral}

/-! ### Words -/

/-- What begins with a letter behind its sign, as infinity and what is not a number are written, is
no literal. -/
theorem Number.ofLiteralChars?_of_isAlpha (hsign : IsSign sign negative) (hc : c.isAlpha = true) :
    ofLiteralChars? (sign ++ c :: rest) = none := by
  have hname : startsName c = true := by rw [startsName, hc, Bool.true_or]
  have hdigit : c.isDigit = false := Bool.eq_false_iff.mpr (isDigit_of_startsName hname)
  have hother (d : Char) (hd : d.isAlpha = false) : c ≠ d := by
    rintro rfl
    cases hd.symm.trans hc
  have hchar : isSignChar c = false :=
    isSignChar_eq_false_iff.mpr ⟨hother '+' rfl, hother '-' rfl⟩
  have hdigits : ¬ IsDigits (sign ++ c :: rest) := by
    rintro ⟨-, hall⟩
    cases hdigit.symm.trans (hall c (by simp))
  rw [ofLiteralChars?_of_not_isDigits hdigits,
    Numeral.ofChars?_eq_none hsign hchar hdigit (hother '.' rfl)]
  rfl

/-- In either case these words begin with a letter. -/
theorem exists_cons_of_mem_nonFiniteWords {word : List Char}
    (h : word.map Char.toLower ∈ nonFiniteWords) :
    ∃ c rest, word = c :: rest ∧ c.isAlpha = true := by
  -- The case of a letter does not matter for its being one.
  have hletter : ∃ d ds, word.map Char.toLower = d :: ds ∧ d.isAlpha = true := by
    rcases List.mem_cons.mp h with hinf | h
    · exact ⟨_, _, hinf, rfl⟩
    · rcases List.mem_pair.mp h with hinfinity | hnan
      · exact ⟨_, _, hinfinity, rfl⟩
      · exact ⟨_, _, hnan, rfl⟩
  obtain ⟨d, ds, hword, hd⟩ := hletter
  obtain ⟨c, rest, rfl, rfl, -⟩ := List.map_eq_cons_iff.mp hword
  exact ⟨c, rest, rfl, by rwa [Char.isAlpha_toLower_eq_isAlpha] at hd⟩

/-! ### Runs of number characters -/

theorem IsFloatRun.isSpelled (h : IsFloatRun cs numeral) : numeral.IsSpelled cs := by
  cases h with
  | point hwhole hfraction =>
    exact ⟨[], _, [], by simp, .none, .behind hwhole hfraction, .none⟩
  | @pointExponent e whole fraction digits hwhole hfraction he hdigits =>
    exact ⟨[], _, e :: ([] ++ digits), by simp, .none, .behind hwhole hfraction,
      .written he .none hdigits⟩
  | @exponent e whole digits hwhole he hdigits =>
    exact ⟨[], _, e :: ([] ++ digits), by simp, .none, .whole hwhole, .written he .none hdigits⟩

theorem IsFloatRun.not_isDigits (h : IsFloatRun cs numeral) : ¬ IsDigits cs := by
  rintro ⟨-, hall⟩
  have hmem (d : Char) (hd : d ∈ cs) (hnot : d.isDigit = false) : False := by
    rw [hall d hd] at hnot
    cases hnot
  cases h with
  | point => exact hmem '.' (by simp) rfl
  | pointExponent => exact hmem '.' (by simp) rfl
  | @exponent e whole digits _ he _ =>
    exact hmem e (by simp) (by rcases he with rfl | rfl <;> rfl)

/-- A sign is no character of a number, ... -/
theorem IsSign.of_isNumberPart (h : IsSign sign negative)
    (hpart : ∀ c ∈ sign, isNumberPart c = true) : sign = [] ∧ negative = false := by
  cases h with
  | none => exact ⟨rfl, rfl⟩
  | plus => exact absurd (hpart '+' (by simp)) (by decide)
  | minus => exact absurd (hpart '-' (by simp)) (by decide)

/-- ... so an exponent has none in a run. -/
theorem IsExponent.of_isNumberPart {value : Int} (h : IsExponent cs value)
    (hpart : ∀ c ∈ cs, isNumberPart c = true) : cs = [] ∧ value = 0 ∨
      ∃ e digits, cs = e :: digits ∧ (e = 'e' ∨ e = 'E') ∧ IsDigits digits ∧
        value = ofDigits digits := by
  cases h with
  | none => exact .inl ⟨rfl, rfl⟩
  | @written e sign digits negative he hsign hdigits =>
    obtain ⟨hsignPart, -⟩ := List.forall_mem_append.mp (List.forall_mem_cons.mp hpart).2
    obtain ⟨rfl, rfl⟩ := hsign.of_isNumberPart hsignPart
    exact .inr ⟨e, digits, rfl, he, hdigits, rfl⟩

/-- A mantissa that begins with a digit has one before its point. -/
theorem IsMantissa.of_isDigit {mantissa whole fraction : List Char}
    (h : IsMantissa mantissa whole fraction) (hc : c.isDigit = true)
    (hcs : c :: run = mantissa ++ rest) : mantissa = whole ∧ fraction = [] ∧ IsDigits whole ∨
      mantissa = whole ++ '.' :: fraction ∧ IsDigits whole ∧
        ∀ c ∈ fraction, c.isDigit = true := by
  cases h with
  | whole hwhole => exact .inl ⟨rfl, rfl, hwhole⟩
  | behind hwhole hfraction => exact .inr ⟨rfl, hwhole, hfraction⟩
  | before hwhole hfraction =>
    refine .inr ⟨rfl, ⟨?_, hwhole⟩, hfraction.2⟩
    -- Without digits before the point the point would come first, and it is no digit.
    rintro rfl
    obtain ⟨rfl, -⟩ := List.cons.inj hcs
    cases hc

/-- **The numerals among the runs** that begin with a digit. -/
theorem isSpelled_iff_isFloatRun (hc : c.isDigit = true)
    (hrun : ∀ d ∈ c :: run, isNumberPart d = true) (hdigits : ¬ IsDigits (c :: run)) :
    numeral.IsSpelled (c :: run) ↔ IsFloatRun (c :: run) numeral := by
  refine ⟨fun h => ?_, fun h => h.isSpelled⟩
  obtain ⟨negative, whole, fraction, value⟩ := numeral
  obtain ⟨sign, mantissa, exponent, hcs, hsign, hmantissa, hexponent⟩ := h
  dsimp only at hsign hmantissa hexponent
  rw [hcs] at hrun
  obtain ⟨hsignPart, hrun⟩ := List.forall_mem_append.mp hrun
  obtain ⟨-, hexponentPart⟩ := List.forall_mem_append.mp hrun
  -- In a run there is no sign, neither in front nor in the exponent; what is left are four cases,
  -- with or without a point and with or without an exponent.
  obtain ⟨rfl, rfl⟩ := hsign.of_isNumberPart hsignPart
  rw [List.nil_append] at hcs
  rcases hmantissa.of_isDigit hc hcs with ⟨rfl, rfl, hwhole⟩ | ⟨rfl, hwhole, hfraction⟩ <;>
    rcases hexponent.of_isNumberPart hexponentPart with
      ⟨rfl, rfl⟩ | ⟨e, digits, rfl, he, hexponentDigits, rfl⟩
  · rw [hcs, List.append_nil] at hdigits
    -- Neither of the two: then the run is digits.
    exact absurd hwhole hdigits
  · rw [hcs]
    exact .exponent hwhole he hexponentDigits
  · rw [hcs, List.append_nil]
    exact .point hwhole hfraction
  · rw [hcs, List.append_assoc, List.cons_append]
    exact .pointExponent hwhole hfraction he hexponentDigits

/-- **The numbers among the runs** that begin with a digit. -/
theorem exists_value_iff_isNumberRun (hc : c.isDigit = true)
    (hrun : ∀ d ∈ c :: run, isNumberPart d = true) :
    (∃ value, Number.ofLiteralChars? (c :: run) = some value) ↔ IsNumberRun (c :: run) := by
  rw [Number.exists_value_iff]
  refine or_congr_right ⟨?_, ?_⟩
  · rintro ⟨hdigits, numeral, hspelled, hfinite⟩
    exact ⟨numeral, (isSpelled_iff_isFloatRun hc hrun hdigits).mp hspelled, hfinite⟩
  · rintro ⟨numeral, hfloat, hfinite⟩
    exact ⟨hfloat.not_isDigits, numeral, hfloat.isSpelled, hfinite⟩

/-! ### Scans -/

/-- **The runs that are scanned as numbers**, wherever they stand. -/
theorem Cursor.scan_run_iff {cursor : Cursor} (hc : c.isDigit = true)
    (hrun : ∀ d ∈ c :: run, isNumberPart d = true) (hrest : StopsRun isNumberPart rest)
    (hahead : cursor.ahead = c :: run ++ rest) :
    (∃ value, cursor.scan.1 = .ok ⟨.number value, cursor.offset⟩ ∧ cursor.scan.2.ahead = rest) ↔
      IsNumberRun (c :: run) := by
  rw [← exists_value_iff_isNumberRun hc hrun]
  cases hvalue : Number.ofLiteralChars? (c :: run) with
  | some value =>
    have hscan := scan_of_isLexeme isBlanks_nil (.number hc hrun hrest hvalue) hahead
    rw [hscan]
    exact iff_of_true ⟨value, rfl, rfl⟩ ⟨value, rfl⟩
  | none =>
    have hscan := scan_of_isFault isBlanks_nil (.malformed hc hrun hrest hvalue) hahead
    rw [hscan]
    exact iff_of_false (fun ⟨_, h, _⟩ => nomatch h) fun ⟨_, h⟩ => nomatch h

/-- **The runs that are the only token of a text.** -/
theorem lex_run_iff {text : String} (htext : text.toList = c :: run) (hc : c.isDigit = true)
    (hrun : ∀ d ∈ c :: run, isNumberPart d = true) :
    (∃ value, lex text = .ok [.number value, .eof]) ↔ IsNumberRun (c :: run) := by
  rw [← exists_value_iff_isNumberRun hc hrun]
  have hrest := stopsRun_nil isNumberPart
  cases hvalue : Number.ofLiteralChars? (c :: run) with
  | some value =>
    -- The run is the only piece of the tiling.
    have htiles := Tiles.cons isBlanks_nil (.number hc hrun hrest hvalue) (.nil [])
    rw [List.nil_append, List.append_nil, ← htext] at htiles
    exact iff_of_true ⟨value, lex_of_isTiling ⟨htiles, isBlanks_nil⟩⟩ ⟨value, rfl⟩
  | none =>
    have htiles : Tiles text.toList [] ([] ++ (c :: run ++ [])) := by
      rw [htext, List.nil_append, List.append_nil]
      exact .nil _
    have hlex := lex_of_isFault htiles isBlanks_nil (.malformed hc hrun hrest hvalue)
    exact iff_of_false (fun ⟨_, h⟩ => nomatch hlex.symm.trans h) fun ⟨_, h⟩ => nomatch h

/-- **The literals are the texts of their grammar with a value in range.**  Integers are digits that
spell an integer of 64 bits, and they are this integer; floats are the other numerals of finite
value, and they are what this value is rounded to, with the sign of the numeral.  All else is none:
digits that spell a greater integer, the empty text, and the words for infinity and for what is not
a number.  So a run of number characters that begins with a digit is a number for the lexer if it is
digits in range, or digits with a point or an exponent or both behind them, of finite value. -/
theorem literals_exact (text : String) :
    ((∃ i, Number.ofLiteral? text = some (.integer i)) ↔ IsIntegerLiteral text.toList) ∧
    (∀ i, Number.ofLiteral? text = some (.integer i) → i.toInt = ofDigits text.toList) ∧
    ((∃ x, Number.ofLiteral? text = some (.float x)) ↔ IsFloatLiteral text.toList) ∧
    (∀ x, Number.ofLiteral? text = some (.float x) → ∃ numeral : Numeral, ∃ magnitude,
      numeral.IsSpelled text.toList ∧ RoundsTo numeral.value magnitude ∧ magnitude < infinity ∧
        x = (Binary64.finite numeral.negative magnitude).toFloat) ∧
    (Number.ofLiteral? text = none ↔
      ¬ IsIntegerLiteral text.toList ∧ ¬ IsFloatLiteral text.toList) ∧
    (IsDigits text.toList → 0x7FFFFFFFFFFFFFFF < ofDigits text.toList →
      Number.ofLiteral? text = none) ∧
    (text = "" → Number.ofLiteral? text = none) ∧
    (∀ sign negative word, IsSign sign negative → word.map Char.toLower ∈ nonFiniteWords →
      text.toList = sign ++ word → Number.ofLiteral? text = none) ∧
    ∀ c run, text.toList = c :: run → c.isDigit = true →
      (∀ d ∈ c :: run, isNumberPart d = true) →
      ((∃ value, lex text = .ok [.number value, .eof]) ↔ IsNumberRun (c :: run)) ∧
      ∀ (cursor : Cursor) (rest : List Char), cursor.ahead = c :: run ++ rest →
        StopsRun isNumberPart rest →
        ((∃ value, cursor.scan.1 = .ok ⟨.number value, cursor.offset⟩ ∧
          cursor.scan.2.ahead = rest) ↔ IsNumberRun (c :: run)) := by
  have hliteral : Number.ofLiteral? text = Number.ofLiteralChars? text.toList := rfl
  -- That a text is no literal is the same for every reason, and most of what follows uses it.
  have hnone : Number.ofLiteralChars? text.toList = none ↔
      ¬ IsIntegerLiteral text.toList ∧ ¬ IsFloatLiteral text.toList := by
    rw [← not_or, ← Number.exists_value_iff, Option.eq_none_iff_forall_ne_some, not_exists]
  rw [hliteral]
  refine ⟨Number.exists_integer_iff, ?_, Number.exists_float_iff, ?_, hnone, ?_, ?_, ?_, ?_⟩
  · intro i hi
    exact (Number.ofLiteralChars?_eq_some_integer_iff.mp hi).2
  · intro x hx
    obtain ⟨-, numeral, hspelled, magnitude, hvalue⟩ :=
      Number.ofLiteralChars?_eq_some_float_iff.mp hx
    exact ⟨numeral, magnitude, hspelled, hvalue⟩
  · intro hdigits hlarge
    -- Digits that spell too great a number are no integer, and no float as they are digits.
    exact hnone.mpr ⟨fun h => absurd h.2 (Nat.not_le.mpr hlarge), fun h => h.1 hdigits⟩
  · rintro rfl
    rfl
  · intro sign negative word hsign hword htext
    -- These words begin with a letter, which neither digits nor numerals do.
    obtain ⟨c, rest, rfl, hc⟩ := exists_cons_of_mem_nonFiniteWords hword
    rw [htext]
    exact Number.ofLiteralChars?_of_isAlpha hsign hc
  · intro c run htext hc hrun
    exact ⟨lex_run_iff htext hc hrun,
      fun cursor rest hahead hrest => Cursor.scan_run_iff hc hrun hrest hahead⟩

/-- One more than the greatest integer is no literal, and an exponent may stand right behind the
point. -/
theorem literals_exact_point_before_exponent :
    Number.ofLiteral? "9223372036854775808" = none ∧ Number.ofLiteral? "-NaN" = none ∧
      ∃ value, lex "2.e3" = .ok [.number value, .eof] := by
  refine ⟨?_, ?_, ?_⟩
  · obtain ⟨-, -, -, -, -, hlarge, -⟩ := literals_exact "9223372036854775808"
    exact hlarge ⟨by decide, List.all_eq_true.mp rfl⟩ (by decide +kernel)
  · obtain ⟨-, -, -, -, -, -, -, hwords, -⟩ := literals_exact "-NaN"
    exact hwords ['-'] true ['N', 'a', 'N'] .minus (by simp [nonFiniteWords]) rfl
  · obtain ⟨-, -, -, -, -, -, -, -, hrun⟩ := literals_exact "2.e3"
    have htwo : IsDigits ['2'] := ⟨by decide, List.all_eq_true.mp rfl⟩
    have hthree : IsDigits ['3'] := ⟨by decide, List.all_eq_true.mp rfl⟩
    have hfraction : ∀ c ∈ ([] : List Char), c.isDigit = true := nofun
    have hfloat : IsFloatRun ['2', '.', 'e', '3'] ⟨false, ['2'], [], 3⟩ :=
      .pointExponent htwo hfraction (.inl rfl) hthree
    have hvalue : (⟨false, ['2'], [], 3⟩ : Numeral).value = 2000 := by
      have hdigits : ofDigits ['2'] = 2 := rfl
      have hnone : ofDigits [] = 0 := rfl
      rw [Numeral.value, hdigits, hnone]
      norm_num
    have hfinite : (⟨false, ['2'], [], 3⟩ : Numeral).IsFinite := by
      have hlarge : (2 : ℚ) ^ 1024 = 2 ^ 54 * 2 ^ 970 := by rw [← pow_add]
      have hpos : (1 : ℚ) ≤ 2 ^ 970 := one_le_pow₀ (by norm_num)
      rw [Numeral.isFinite_iff, hvalue, overflowBound, hlarge]
      -- The power has to stay a name: it is too large to be computed with.
      generalize (2 : ℚ) ^ 970 = step at hpos ⊢
      linarith
    exact (hrun '2' ['.', 'e', '3'] rfl rfl (List.all_eq_true.mp rfl)).1.mpr
      (.inr ⟨_, hfloat, hfinite⟩)

end Abacus
