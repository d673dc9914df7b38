import Abacus.Proofs.Token.Joining
import Abacus.Proofs.Token.Lexing

/-!
# The first fault of a text

A text without tokens is complained of where its first fault stands: a character that begins no
token, or a run that begins like a number and is none.  What stands before the fault has tokens.
The other way round, a fault behind a text with tokens is complained of, unless it is no fault
there, since the text before it and the run at its place go on into each other.

## Main definitions

* `IsStray` — the characters that neither begin a token nor stand between tokens.
* `FaultyAt` — what a text begins with is faulty, and what is complained of then.

## Main results

* `faultyAt_iff` — these are the faults that a scan comes to.
* `lex_error_exact` — **a text is complained of where its first fault stands.**
-/

namespace Abacus

variable {cs rest before after : List Char} {fault : Nat → LexError} {error : LexError}
  {position : Nat}

/-- A character that is no blank, no digit and no letter of ASCII, no underscore, and no operator or
parenthesis. -/
def IsStray (c : Char) : Prop :=
  isBlank c = false ∧ c.isDigit = false ∧ c.isAlpha = false ∧ c ≠ '_' ∧
    c ∉ ['+', '-', '*', '/', '(', ')']

/-- The characters, which begin at the position, begin with what is no token: with a stray
character, or with a run of digits, letters, underscores and points, as long as it can be, that
begins with a digit and is no number.  The error is the complaint of it. -/
def FaultyAt (position : Nat) (cs : List Char) (error : LexError) : Prop :=
  (∃ c rest, cs = c :: rest ∧ IsStray c ∧ error = .unexpectedInput c position) ∨
  ∃ c run rest, cs = c :: run ++ rest ∧ c.isDigit = true ∧
    (∀ d ∈ c :: run, isNumberPart d = true) ∧ StopsRun isNumberPart rest ∧
    Number.ofLiteral? (String.ofList (c :: run)) = none ∧
    error = .malformedNumber (String.ofList (c :: run)) position

theorem ofSymbol?_eq_none_iff {c : Char} :
    Token.ofSymbol? c = none ↔ c ∉ ['+', '-', '*', '/', '(', ')'] := by
  unfold Token.ofSymbol?
  split <;> simp_all

theorem isStray_iff {c : Char} :
    IsStray c ↔ isBlank c = false ∧ c.isDigit = false ∧ startsName c = false ∧
      Token.ofSymbol? c = none := by
  rw [IsStray, ofSymbol?_eq_none_iff, startsName, Bool.or_eq_false_iff, beq_eq_false_iff_ne,
    and_assoc]

theorem ofLiteral?_ofList (cs : List Char) :
    Number.ofLiteral? (String.ofList cs) = Number.ofLiteralChars? cs :=
  congrArg Number.ofLiteralChars? String.toList_ofList

/-- **These are the faults that a scan comes to.** -/
theorem faultyAt_iff :
    FaultyAt position cs error ↔ ∃ fault, IsFault cs fault ∧ fault position = error := by
  constructor
  · rintro (⟨c, rest, rfl, hc, rfl⟩ | ⟨c, run, rest, rfl, hc, hrun, hrest, hvalue, rfl⟩)
    · obtain ⟨hblank, hdigit, hname, hsymbol⟩ := isStray_iff.mp hc
      exact ⟨_, .unexpected hblank hdigit hname hsymbol, rfl⟩
    · rw [ofLiteral?_ofList] at hvalue
      exact ⟨_, .malformed hc hrun hrest hvalue, rfl⟩
  · rintro ⟨fault, hfault, rfl⟩
    -- A fault is a number out of range or a character that begins nothing.
    cases hfault with
    | @malformed c run rest hc hrun hrest hvalue =>
      rw [← ofLiteral?_ofList] at hvalue
      exact .inr ⟨c, run, rest, rfl, hc, hrun, hrest, hvalue, rfl⟩
    | @unexpected c rest hblank hdigit hname hsymbol =>
      exact .inl ⟨c, rest, rfl, isStray_iff.mpr ⟨hblank, hdigit, hname, hsymbol⟩, rfl⟩

/-! ### Texts with a fault -/

/-- What is tiled up to a fault has tokens if it is cut off there. -/
theorem exists_lex_of_tiles {pieces : List Piece} {blanks : List Char}
    (h : Tiles cs pieces (blanks ++ rest)) (hblanks : IsBlanks blanks) :
    ∃ ts, lex (String.ofList (written pieces ++ blanks)) = .ok ts := by
  have htiling : IsTiling (String.ofList (written pieces ++ blanks)).toList pieces blanks := by
    rw [String.toList_ofList]
    exact ⟨h.of_append, hblanks⟩
  exact ⟨_, lex_of_isTiling htiling⟩

/-- A fault behind a text that has tokens is the first one, if the two are apart. -/
theorem lex_append_of_isFault {text : String} {ts : List Token}
    (htext : text.toList = before ++ after) (hbefore : lex (String.ofList before) = .ok ts)
    (hfault : IsFault after fault) (hapart : Apart before after) :
    lex text = .error (fault (byteLength before)) := by
  obtain ⟨pieces, last, htiling, -⟩ := exists_isTiling_of_lex hbefore
  rw [String.toList_ofList] at htiling
  have htiles : Tiles text.toList pieces (last ++ after) := htext ▸ htiling.tiles.append hapart
  rw [htiling.tiles.eq_append]
  exact lex_of_isFault htiles htiling.blanks hfault

/-- **A text is complained of where its first fault stands.**  If it has no tokens, it is divided
before a fault, at the position of the error; what stands before the fault has tokens, and the error
is the complaint of the fault.  And if a fault stands behind a text that has tokens and is apart
from it, then it is complained of there. -/
theorem lex_error_exact (text : String) :
    (∀ error, lex text = .error error →
      error.position < byteLength text.toList ∧
      ∃ before after, text.toList = before ++ after ∧ byteLength before = error.position ∧
        (∃ ts, lex (String.ofList before) = .ok ts) ∧ FaultyAt error.position after error) ∧
    ∀ before after error, text.toList = before ++ after →
      (∃ ts, lex (String.ofList before) = .ok ts) →
      FaultyAt (byteLength before) after error → Apart before after →
      lex text = .error error := by
  constructor
  · intro error h
    obtain ⟨pieces, blanks, rest, fault, htiles, hblanks, hfault, rfl⟩ := lex_eq_error_iff.mp h
    have htext : text.toList = written pieces ++ blanks ++ rest := by
      rw [List.append_assoc]
      exact htiles.eq_append
    rw [hfault.position_eq]
    refine ⟨?_, written pieces ++ blanks, rest, htext, rfl, exists_lex_of_tiles htiles hblanks,
      faultyAt_iff.mpr ⟨fault, hfault, rfl⟩⟩
    -- The fault begins with a character, so it lies before the end.
    obtain ⟨c, run, rfl, -⟩ := hfault.exists_cons
    rw [htext, byteLength_append (written pieces ++ blanks)]
    exact Nat.lt_add_of_pos_right (byteLength_pos_of_ne_nil (List.cons_ne_nil c run))
  · rintro before after error htext ⟨ts, hbefore⟩ hfaulty hapart
    obtain ⟨fault, hfault, rfl⟩ := faultyAt_iff.mp hfaulty
    exact lex_append_of_isFault htext hbefore hfault hapart

/-- Blanks before a run that is no number are not part of it, and they may take three bytes; and a
letter with an accent is stray also directly behind a name. -/
theorem lex_error_exact_behind_blanks :
    (lex "2*\u30001a" = .error (.malformedNumber "1a" 5) ∧
      ∃ before after, "2*\u30001a".toList = before ++ after ∧ byteLength before = 5 ∧
        (∃ ts, lex (String.ofList before) = .ok ts) ∧
        FaultyAt 5 after (.malformedNumber "1a" 5)) ∧
    (FaultyAt 2 ['é', '1'] (.unexpectedInput 'é' 2) ∧
      lex "x_é1" = .error (.unexpectedInput 'é' 2)) := by
  have hmalformed : lex "2*\u30001a" = .error (.malformedNumber "1a" 5) := by
    with_unfolding_all rfl
  have hname : lex (String.ofList ['x', '_']) = .ok [.identifier "x_", .eof] := by
    with_unfolding_all rfl
  have hstray : FaultyAt 2 ['é', '1'] (.unexpectedInput 'é' 2) :=
    .inl ⟨'é', ['1'], rfl, ⟨rfl, rfl, rfl, by decide, by decide⟩, rfl⟩
  have hapart : Apart ['x', '_'] ['é', '1'] := apart_of_stopsRun (stopsRun_cons rfl)
  obtain ⟨-, hdivided⟩ := (lex_error_exact "2*\u30001a").1 _ hmalformed
  exact ⟨⟨hmalformed, hdivided⟩, hstray,
    (lex_error_exact "x_é1").2 ['x', '_'] ['é', '1'] _ (by decide) ⟨_, hname⟩ hstray hapart⟩

end Abacus
