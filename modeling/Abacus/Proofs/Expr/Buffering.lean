import Abacus.Proofs.Expr.Descending
import Abacus.Proofs.Grammar.Acceptance
import Abacus.Proofs.Token.Lexing

/-!
# A text and its tokens

A text may be read as it is divided into tokens, or after that.  The outcome is the same, but that
an error stands at an offset of the text in the one case and at a place in the list of the tokens in
the other.  If the text is faulty, reading it comes to the fault, or to an error among the tokens
before it that makes the rest of no concern.

## Main results

* `Parser.outcome_ofText`, `Parser.outcome_ofTokens` — what the two parsers read.
* `Parser.position_le_of_outcome_ofTokens` — an error stands at a token of the list, or behind it.
* `Parser.outcome_ofText_of_isTiling` — a text without a fault.
* `Parser.outcome_ofText_ne_ok`, `Parser.outcome_ofText_of_isFault` — a text with a fault.
* `parse_text_as_tokens` — **reading a text and reading its tokens.**
-/

namespace Abacus

namespace Parser

variable {text : String} {pieces : List Piece} {blanks rest last : List Char}
  {fault : Nat → LexError}

theorem outcome_ofText (text : String) : (ofText text).outcome = Expr.parse text :=
  Descent.parse_eq _

theorem outcome_ofTokens (ts : List Token) : (ofTokens ts).outcome = Expr.parseTokens ts :=
  Descent.parse_eq _

/-- The end behind a list of tokens may be left out. -/
theorem outcome_ofTokens_append_eof (ts : List Token) :
    (ofTokens (ts ++ [.eof])).outcome = (ofTokens ts).outcome := by
  rw [outcome_ofTokens, outcome_ofTokens, Expr.parseTokens, Input.ofTokens_append_eof]
  rfl

/-- What is wrong with a list of tokens is wrong with one of them, or with its end. -/
theorem position_le_of_outcome_ofTokens {ts : List Token} {error : Error}
    (h : (ofTokens ts).outcome = .error error) :
    ∃ parseError, error = .parse parseError ∧ parseError.position ≤ ts.length := by
  obtain ⟨last, hstop⟩ := Input.stop_ofTokens ts 0
  obtain ⟨parseError, rfl⟩ := Descent.exists_parse_of_parse_eq_error hstop h
  have hwithin := Input.within_ofTokens ts 0
  rw [Nat.zero_add] at hwithin
  obtain ⟨p, hp, hle⟩ := @Descent.exists_position_of_parse_eq_error _ _ (TokenQueue.ofList ts) _ _
    hwithin _ h
  exact ⟨parseError, rfl, Option.some.inj hp ▸ hle⟩

/-! ### Texts without a fault -/

/-- The tokens of a text stand in it where their lexemes start. -/
theorem mapPositions_ofTokens_of_isTiling {cs : List Char} (h : IsTiling cs pieces last) :
    (Input.ofTokens 0 (pieces.map Piece.token)).mapPositions (startOf last pieces)
      = ⟨locate 0 pieces, .ending (byteLength (written pieces ++ last))⟩ := by
  have heof := h.tiles.isEof_eq_false
  rw [Input.mapPositions, Input.stop_ofTokens_map_token heof,
    Input.map_tokens_ofTokens_eq_locate heof _ 0 0 fun _ _ => by rw [Nat.zero_add, Nat.zero_add],
    Stop.mapPosition, Nat.zero_add, startOf_length]

theorem outcome_ofText_of_isTiling (h : IsTiling text.toList pieces last) :
    (ofText text).outcome = (ofTokens (pieces.map Piece.token)).outcome.mapError
      (Error.mapPosition (startOf last pieces)) := by
  rw [outcome_ofTokens]
  refine Descent.parse_eq_mapError ?_
  rw [input_ofString_of_isTiling h, mapPositions_ofTokens_of_isTiling h]

/-! ### Texts with a fault -/

section Fault

variable (h : Tiles text.toList pieces (blanks ++ rest)) (hblanks : IsBlanks blanks)
  (hfault : IsFault rest fault)

include h hblanks hfault

/-- If the fault is not met, it does not matter what stands in its place, nor where. -/
theorem outcome_ofText_of_ne_fault
    (hne : (ofText text).outcome ≠ .error (.lex (fault (byteLength (written pieces ++ blanks)))))
    {f : Nat → Nat} (hf : ∀ number < pieces.length, f number = startOf blanks pieces number) :
    (ofText text).outcome
      = (ofTokens (pieces.map Piece.token)).outcome.mapError (Error.mapPosition f) := by
  have htokens : (Input.ofTokens 0 (pieces.map Piece.token)).tokens.map (Located.mapPosition f)
      = locate 0 pieces := by
    refine Input.map_tokens_ofTokens_eq_locate h.isEof_eq_false blanks 0 0 fun number hnumber => ?_
    rw [Nat.zero_add, Nat.zero_add]
    exact hf number hnumber
  have hinput := input_ofString_of_isFault h hblanks hfault
  rw [← htokens] at hinput
  rw [outcome_ofTokens]
  exact (Descent.parse_of_fault hinput _).resolve_left hne

/-- Nothing is read of a text with a fault. -/
theorem outcome_ofText_ne_ok (e : Expr) : (ofText text).outcome ≠ .ok e := by
  intro hok
  rw [outcome_ofText] at hok
  obtain ⟨last, hstop⟩ := Input.exists_ending_of_parseWithin hok
  have hinput := input_ofString_of_isFault h hblanks hfault
  exact nomatch hstop.symm.trans (congrArg Input.stop hinput)

theorem outcome_ofText_of_isFault :
    (ofText text).outcome
        = .error (.lex (fault (byteLength (written pieces ++ blanks)))) ∨
      ∃ parseError,
        (ofTokens (pieces.map Piece.token)).outcome = .error (.parse parseError) ∧
        parseError.position < pieces.length ∧
        (ofText text).outcome
          = .error (.parse (parseError.mapPosition (startOf blanks pieces))) := by
  -- Suppose that the fault is not met.
  rw [or_iff_not_imp_left]
  intro hne
  have hplaces := outcome_ofText_of_ne_fault h hblanks hfault hne fun _ _ => rfl
  cases houtcome : (ofTokens (pieces.map Piece.token)).outcome with
  -- The text has a fault, so its tokens cannot be read as a whole.
  | ok e =>
    rw [houtcome] at hplaces
    exact absurd hplaces (outcome_ofText_ne_ok h hblanks hfault e)
  | error error =>
    obtain ⟨parseError, rfl, -⟩ := position_le_of_outcome_ofTokens houtcome
    rw [houtcome] at hplaces
    refine ⟨parseError, rfl, ?_, hplaces⟩
    by_contra hbehind
    -- Behind the tokens the error could as well stand one byte farther, but there is one outcome.
    let farther (number : Nat) : Nat :=
      if number < pieces.length then startOf blanks pieces number
      else startOf blanks pieces number + 1
    have hfarther : ∀ number < pieces.length, farther number = startOf blanks pieces number :=
      fun number hnumber => if_pos hnumber
    have hplaces' := outcome_ofText_of_ne_fault h hblanks hfault hne hfarther
    rw [houtcome, hplaces] at hplaces'
    have hposition := congrArg ParseError.position (Error.parse.inj (Except.error.inj hplaces'))
    rw [ParseError.position_mapPosition, ParseError.position_mapPosition] at hposition
    exact absurd (hposition.trans (if_neg hbehind)) (Nat.succ_ne_self _).symm

end Fault

end Parser

open TokenSource (peek position advance)

/-- **Reading a text and reading its tokens.**  If a text has tokens, the same is read of it as of
them: the same tree, or the same error, at the offset where the token starts that it stands at in
their list, or at the end of the text if it stands behind all of them.  If the text has a fault,
what is read of it is this fault, or it is the error that is read of the tokens before the fault,
which then stands at one of these. -/
theorem parse_text_as_tokens (text : String) :
    (∀ ts, lex text = .ok ts → ∃ pieces last, IsTiling text.toList pieces last ∧
      ts = pieces.map Piece.token ++ [.eof] ∧
      (∀ number ≤ pieces.length,
        position (peek (advance^[number] (Lexer.ofString text))).2 = startOf last pieces number) ∧
      (Parser.ofText text).parse.1
        = (Parser.ofTokens ts).parse.1.mapError (Error.mapPosition (startOf last pieces)) ∧
      ∀ error, (Parser.ofTokens ts).parse.1 = .error error →
        ∃ parseError, error = .parse parseError ∧ parseError.position ≤ pieces.length) ∧
    (∀ error, lex text = .error error → ∃ before after pieces last,
      text.toList = before ++ after ∧ byteLength before = error.position ∧
      IsTiling before pieces last ∧
      ((Parser.ofText text).parse.1 = .error (.lex error) ∨
        ∃ parseError,
          (Parser.ofTokens (pieces.map Piece.token)).parse.1 = .error (.parse parseError) ∧
          parseError.position < pieces.length ∧
          (Parser.ofText text).parse.1
            = .error (.parse (parseError.mapPosition (startOf last pieces))) ∧
          startOf last pieces parseError.position < error.position)) := by
  -- The two statements are about disjoint cases: a text with tokens, and one with a fault.
  refine ⟨fun ts h => ?_, fun error h => ?_⟩
  · obtain ⟨pieces, last, htiling, rfl⟩ := exists_isTiling_of_lex h
    refine ⟨pieces, last, htiling, rfl, fun _ => position_iterate_of_isTiling htiling, ?_,
      fun error herror => ?_⟩
    · exact (Parser.outcome_ofText_of_isTiling htiling).trans
        (Parser.outcome_ofTokens_append_eof _ ▸ rfl)
    · have hposition := Parser.position_le_of_outcome_ofTokens
        ((Parser.outcome_ofTokens_append_eof _).symm.trans herror)
      rwa [List.length_map] at hposition
  · obtain ⟨pieces, blanks, rest, fault, htiles, hblanks, hfault, rfl⟩ := lex_eq_error_iff.mp h
    have htext : text.toList = written pieces ++ blanks ++ rest := by
      rw [List.append_assoc]
      exact htiles.eq_append
    refine ⟨written pieces ++ blanks, rest, pieces, blanks, htext, (hfault.position_eq _).symm,
      ⟨htiles.of_append, hblanks⟩, ?_⟩
    rcases Parser.outcome_ofText_of_isFault htiles hblanks hfault with
      hlex | ⟨parseError, hbefore, hlt, houtcome⟩
    · exact .inl hlex
    · refine .inr ⟨parseError, hbefore, hlt, houtcome, ?_⟩
      -- A token before the fault starts before it.
      rw [hfault.position_eq]
      exact htiles.startOf_lt hlt

/-- The group is not closed where the text ends; and the fault at offset 4 is not met, as the second
name stands where none may stand. -/
theorem parse_text_as_tokens_unclosed :
    lex "(x\u3000" = .ok [.openParen, .identifier "x", .eof] ∧
      (∃ pieces last, (Parser.ofText "(x\u3000").parse.1
        = (Parser.ofTokens [.openParen, .identifier "x", .eof]).parse.1.mapError
            (Error.mapPosition (startOf last pieces))) ∧
    lex "x y $" = .error (.unexpectedInput '$' 4) ∧
      ∃ error : ParseError, (Parser.ofText "x y $").parse.1 = .error (.parse error) ∧
        error.position < 4 := by
  have hlex : lex "(x\u3000" = .ok [.openParen, .identifier "x", .eof] := by
    with_unfolding_all rfl
  have hfaulty : lex "x y $" = .error (.unexpectedInput '$' 4) := by with_unfolding_all rfl
  have htrailing : (Parser.ofText "x y $").parse.1
      = .error (.parse (.trailingTokens (.identifier "y") 2)) := by
    with_unfolding_all rfl
  obtain ⟨pieces, last, -, -, -, hsame, -⟩ := (parse_text_as_tokens _).1 _ hlex
  obtain ⟨_, _, _, _, -, -, -, hfault | ⟨error, -, -, houtcome, hlt⟩⟩ :=
    (parse_text_as_tokens _).2 _ hfaulty
  · exact nomatch hfault.symm.trans htrailing
  · refine ⟨hlex, ⟨pieces, last, hsame⟩, hfaulty, _, houtcome, ?_⟩
    rw [ParseError.position_mapPosition]
    exact hlt

end Abacus
