import Abacus.Decimal.Numeral
import Abacus.Proofs.Text.Runs

/-!
# The texts that are numerals

A numeral is read in one pass, each part as far as it goes.  What is read in this way are exactly
the texts of the grammar, with the parts that the grammar gives them.

## Main definitions

* `IsDigits` — digits, at least one.
* `IsSign`, `IsMantissa`, `IsExponent` — the parts of a numeral as they are written.
* `Numeral.IsSpelled` — the texts of the grammar.

## Main results

* `Numeral.readDigits?_eq_some_iff`, `Numeral.readExponent?_eq_some_iff` — the parts that are read.
* `Numeral.ofChars?_eq_some_iff` — **the numerals are the texts of the grammar.**
-/

namespace Abacus

/-- Digits, at least one. -/
def IsDigits (cs : List Char) : Prop := cs ≠ [] ∧ ∀ c ∈ cs, c.isDigit = true

/-- An optional sign, and whether it is a minus. -/
inductive IsSign : List Char → Bool → Prop
  | none : IsSign [] false
  | plus : IsSign ['+'] false
  | minus : IsSign ['-'] true

/-- Digits with no point, or with one behind, among or before them, and the digits on either side of
it. -/
inductive IsMantissa : List Char → List Char → List Char → Prop
  | whole {whole : List Char} : IsDigits whole → IsMantissa whole whole []
  | behind {whole fraction : List Char} :
      IsDigits whole → (∀ c ∈ fraction, c.isDigit = true) →
      IsMantissa (whole ++ '.' :: fraction) whole fraction
  | before {whole fraction : List Char} :
      (∀ c ∈ whole, c.isDigit = true) → IsDigits fraction →
      IsMantissa (whole ++ '.' :: fraction) whole fraction

/-- An optional exponent, and its value. -/
inductive IsExponent : List Char → Int → Prop
  | none : IsExponent [] 0
  | written {e : Char} {sign digits : List Char} {negative : Bool} :
      e = 'e' ∨ e = 'E' → IsSign sign negative → IsDigits digits →
      IsExponent (e :: (sign ++ digits))
        (if negative then -(ofDigits digits : Int) else (ofDigits digits : Int))

/-- The text is a sign, a mantissa and an exponent, and these are the parts of the numeral. -/
def Numeral.IsSpelled (numeral : Numeral) (cs : List Char) : Prop :=
  ∃ sign mantissa exponent, cs = sign ++ (mantissa ++ exponent) ∧
    IsSign sign numeral.negative ∧ IsMantissa mantissa numeral.whole numeral.fraction ∧
    IsExponent exponent numeral.exponent

variable {cs rest sign mantissa whole fraction : List Char} {negative : Bool} {exponent : Int}
  {n : Nat} {numeral : Numeral}

/-! ### What the parts begin with -/

/-- The characters that a sign is written with. -/
def isSignChar (c : Char) : Bool := c == '+' || c == '-'

theorem isSignChar_eq_false_iff {c : Char} : isSignChar c = false ↔ c ≠ '+' ∧ c ≠ '-' := by
  rw [isSignChar, Bool.or_eq_false_iff, beq_eq_false_iff_ne, beq_eq_false_iff_ne]

theorem stopsRun_isSignChar_of_isDigit {c : Char} (h : c.isDigit = true) :
    StopsRun isSignChar (c :: rest) := by
  refine stopsRun_cons (isSignChar_eq_false_iff.mpr ⟨?_, ?_⟩)
  · rintro rfl
    cases h
  · rintro rfl
    cases h

theorem IsDigits.stopsRun_isSignChar (h : IsDigits cs) (rest : List Char) :
    StopsRun isSignChar (cs ++ rest) := by
  obtain ⟨hne, hdigits⟩ := h
  obtain ⟨c, cs, rfl⟩ := List.exists_cons_of_ne_nil hne
  exact stopsRun_isSignChar_of_isDigit (hdigits c List.mem_cons_self)

theorem IsMantissa.stopsRun_isSignChar (h : IsMantissa mantissa whole fraction)
    (rest : List Char) : StopsRun isSignChar (mantissa ++ rest) := by
  cases h with
  | whole hwhole => exact hwhole.stopsRun_isSignChar rest
  | behind hwhole _ =>
    rw [List.append_assoc]
    exact hwhole.stopsRun_isSignChar _
  | before hwhole _ =>
    cases whole with
    | nil => exact stopsRun_cons rfl
    | cons c whole => exact stopsRun_isSignChar_of_isDigit (hwhole c List.mem_cons_self)

/-- An exponent does not prolong the digits before it, ... -/
theorem IsExponent.stopsRun_isDigit (h : IsExponent cs exponent) : StopsRun Char.isDigit cs := by
  cases h with
  | none => exact stopsRun_nil _
  | written he _ _ => rcases he with rfl | rfl <;> exact stopsRun_cons rfl

/-- ... and it does not begin with a point. -/
theorem IsExponent.ne_point (h : IsExponent cs exponent) : cs ≠ '.' :: rest := by
  rintro rfl
  cases h with
  | written he _ _ => rcases he with he | he <;> cases he

namespace Numeral

/-! ### Signs, digits and exponents -/

/-- A sign is read in front of what does not begin with one. -/
theorem readSign_append (hsign : IsSign sign negative) (hrest : StopsRun isSignChar rest) :
    readSign (sign ++ rest) = (negative, rest) := by
  cases hsign with
  | plus => rfl
  | minus => rfl
  | none =>
    rw [List.nil_append]
    unfold readSign
    split
    · exact nomatch hrest '-' rfl
    · exact nomatch hrest '+' rfl
    · rfl

/-- What is read as a sign stands in front. -/
theorem exists_readSign (cs : List Char) :
    ∃ sign, cs = sign ++ (readSign cs).2 ∧ IsSign sign (readSign cs).1 := by
  unfold readSign
  split
  · exact ⟨['-'], rfl, .minus⟩
  · exact ⟨['+'], rfl, .plus⟩
  · exact ⟨[], rfl, .none⟩

theorem readDigits?_eq_some_iff : readDigits? cs = some n ↔ IsDigits cs ∧ n = ofDigits cs := by
  unfold readDigits? IsDigits
  by_cases hempty : cs = []
  · simp [hempty]
  · by_cases hall : cs.all Char.isDigit = true
    · rw [if_neg (by simpa using hempty), if_pos hall, Option.some_inj, eq_comm]
      exact (and_iff_right ⟨hempty, List.all_eq_true.mp hall⟩).symm
    · have hdigits : ¬ ∀ c ∈ cs, c.isDigit = true := mt List.all_eq_true.mpr hall
      rw [if_neg (by simpa using hempty), if_neg hall]
      exact iff_of_false nofun fun h => hdigits h.1.2

theorem readExponent?_cons {c : Char} (hc : c = 'e' ∨ c = 'E') :
    readExponent? (c :: cs) = (readDigits? (readSign cs).2).map fun n : Nat =>
      if (readSign cs).1 then -(n : Int) else (n : Int) := by
  rw [readExponent?, if_pos hc]
  dsimp only
  cases readDigits? (readSign cs).2 <;> rfl

/-- **The exponents that are read.** -/
theorem readExponent?_eq_some_iff : readExponent? cs = some exponent ↔ IsExponent cs exponent := by
  constructor
  · intro h
    cases cs with
    | nil =>
      obtain rfl := Option.some.inj h
      exact .none
    | cons c cs =>
      by_cases hc : c = 'e' ∨ c = 'E'
      · rw [readExponent?_cons hc] at h
        obtain ⟨n, hn, rfl⟩ := Option.map_eq_some_iff.mp h
        obtain ⟨hdigits, rfl⟩ := readDigits?_eq_some_iff.mp hn
        obtain ⟨sign, hcs, hsign⟩ := exists_readSign cs
        have hwritten := IsExponent.written hc hsign hdigits
        rwa [← hcs] at hwritten
      · rw [readExponent?, if_neg hc] at h
        cases h
  · intro h
    cases h with
    | none => rfl
    | @written e sign digits negative he hsign hdigits =>
      -- The sign ends where the digits begin, so the text is cut where it was put together.
      have hstops : StopsRun isSignChar digits := by
        simpa using hdigits.stopsRun_isSignChar []
      have hread := readDigits?_eq_some_iff.mpr ⟨hdigits, rfl⟩
      rw [readExponent?_cons he, readSign_append hsign hstops, hread, Option.map_some]

/-! ### Mantissas -/

theorem readFraction_point (hfraction : ∀ c ∈ fraction, c.isDigit = true)
    (hrest : StopsRun Char.isDigit rest) :
    readFraction ('.' :: (fraction ++ rest)) = (fraction, rest) := by
  rw [readFraction, takeWhile_append_of_stopsRun hfraction hrest,
    dropWhile_append_of_stopsRun hfraction hrest]

/-- A text that does not go on with a point has no fraction. -/
theorem readFraction_of_ne_point (h : ∀ rest, cs ≠ '.' :: rest) : readFraction cs = ([], cs) := by
  unfold readFraction
  split
  · next rest => exact absurd rfl (h rest)
  · rfl

/-- A mantissa in front of an exponent is read as the digits on both sides of its point. -/
theorem read_mantissa (hmantissa : IsMantissa mantissa whole fraction)
    (hexponent : IsExponent rest exponent) :
    (mantissa ++ rest).takeWhile Char.isDigit = whole ∧
      readFraction ((mantissa ++ rest).dropWhile Char.isDigit) = (fraction, rest) ∧
      (whole.isEmpty && fraction.isEmpty) = false := by
  have hstops := hexponent.stopsRun_isDigit
  have hpoint : StopsRun Char.isDigit ('.' :: (fraction ++ rest)) := stopsRun_cons rfl
  -- Whole digits alone, a point behind them, or a point with digits behind it: in each the first
  -- run of digits ends where it should.
  cases hmantissa with
  | whole hwhole =>
    rw [takeWhile_append_of_stopsRun hwhole.2 hstops, dropWhile_append_of_stopsRun hwhole.2 hstops,
      readFraction_of_ne_point fun _ => hexponent.ne_point]
    simp [hwhole.1]
  | behind hwhole hdigits =>
    rw [List.append_assoc, List.cons_append, takeWhile_append_of_stopsRun hwhole.2 hpoint,
      dropWhile_append_of_stopsRun hwhole.2 hpoint, readFraction_point hdigits hstops]
    simp [hwhole.1]
  | before hwhole hdigits =>
    rw [List.append_assoc, List.cons_append, takeWhile_append_of_stopsRun hwhole hpoint,
      dropWhile_append_of_stopsRun hwhole hpoint, readFraction_point hdigits.2 hstops]
    simp [hdigits.1]

/-- Digits, and what is read behind them as a fraction, are a mantissa if there is a digit. -/
theorem exists_mantissa {tail : List Char} (hwhole : ∀ c ∈ whole, c.isDigit = true)
    (hne : (whole.isEmpty && (readFraction tail).1.isEmpty) = false) :
    ∃ mantissa, whole ++ tail = mantissa ++ (readFraction tail).2 ∧
      IsMantissa mantissa whole (readFraction tail).1 := by
  unfold readFraction at hne ⊢
  split at hne
  · next tail =>
    -- The digits behind the point are a run, and one of the two runs is not empty.
    obtain ⟨fraction, rest, rfl, hfraction, hrest⟩ := exists_run Char.isDigit tail
    dsimp only at hne ⊢
    rw [takeWhile_append_of_stopsRun hfraction hrest] at hne ⊢
    rw [dropWhile_append_of_stopsRun hfraction hrest]
    refine ⟨whole ++ '.' :: fraction, by simp, ?_⟩
    by_cases hempty : whole = []
    · have hfractionne : fraction ≠ [] := by
        rintro rfl
        simp [hempty] at hne
      exact .before hwhole ⟨hfractionne, hfraction⟩
    · exact .behind ⟨hempty, hwhole⟩ hfraction
  · have hwholene : whole ≠ [] := by
      rintro rfl
      simp at hne
    exact ⟨whole, rfl, .whole ⟨hwholene, hwhole⟩⟩

/-! ### Whole numerals -/

/-- **The numerals are the texts of the grammar**, and they are read with the parts that they are
spelled with. -/
theorem ofChars?_eq_some_iff : ofChars? cs = some numeral ↔ numeral.IsSpelled cs := by
  constructor
  · intro h
    obtain ⟨sign, hcs, hsign⟩ := exists_readSign cs
    unfold ofChars? at h
    dsimp only at h
    -- The reader looks for the first character that is no digit; there the text is cut.
    obtain ⟨whole, tail, hrun, hwhole, htail⟩ := exists_run Char.isDigit (readSign cs).2
    rw [hrun, takeWhile_append_of_stopsRun hwhole htail,
      dropWhile_append_of_stopsRun hwhole htail] at h
    split at h
    · cases h
    · next hne =>
      obtain ⟨exponent, hexponent, rfl⟩ := Option.map_eq_some_iff.mp h
      obtain ⟨mantissa, hparts, hmantissa⟩ := exists_mantissa hwhole (Bool.eq_false_iff.mpr hne)
      refine ⟨sign, mantissa, (readFraction tail).2, ?_, hsign, hmantissa,
        readExponent?_eq_some_iff.mp hexponent⟩
      rw [← hparts, ← hrun, ← hcs]
  · rintro ⟨sign, mantissa, exponent, rfl, hsign, hmantissa, hexponent⟩
    obtain ⟨hwhole, hfraction, hne⟩ := read_mantissa hmantissa hexponent
    unfold ofChars?
    rw [readSign_append hsign (hmantissa.stopsRun_isSignChar exponent)]
    dsimp only
    rw [hwhole, hfraction]
    dsimp only
    rw [hne, readExponent?_eq_some_iff.mpr hexponent]
    rfl

/-- What goes on behind its sign neither with a digit nor with a point is no numeral. -/
theorem ofChars?_eq_none {c : Char} (hsign : IsSign sign negative) (hchar : isSignChar c = false)
    (hdigit : c.isDigit = false) (hpoint : c ≠ '.') : ofChars? (sign ++ c :: rest) = none := by
  have hwhole : (c :: rest).takeWhile Char.isDigit = [] := by simp [hdigit]
  have htail : (c :: rest).dropWhile Char.isDigit = c :: rest := by simp [hdigit]
  have hfraction : readFraction (c :: rest) = ([], c :: rest) :=
    readFraction_of_ne_point fun _ h => hpoint (List.cons.inj h).1
  unfold ofChars?
  rw [readSign_append hsign (stopsRun_cons hchar)]
  dsimp only
  rw [hwhole, htail, hfraction]
  rfl

end Numeral

end Abacus
