import Abacus.Proofs.Expr.Buffering
import Abacus.Proofs.Grammar.Acceptance
import Abacus.Proofs.Grammar.Refusals

/-!
# The earliest errors

A list of tokens that is no expression is refused at the first token that no expression goes on
with, or at its end if that comes too early.  What the tokens before it are decides of the cause: a
complete expression, an expression directly inside of an open group, or less than that.

## Main definitions

* `RefusedAt` — where and for what a list of tokens is refused.

## Main results

* `exists_refusedAt_of_parse` — a list that is no expression is refused somewhere.
* `refused_at_earliest_token` — **errors are reported at the earliest token,** and the tokens before
  it give the cause.
-/

namespace Abacus

open Place (awaiting behind)

/-! ### The token that is refused -/

section

variable {tokens before after : List Token} {token : Token}

/-- A token before the first `eof` stands in the list where it stands among these. -/
theorem getD_of_takeWhile_eq
    (h : tokens.takeWhile (fun token => !token.isEof) = before ++ token :: after) :
    tokens.getD before.length .eof = token := by
  rw [← tokens.takeWhile_append_dropWhile (p := fun token => !token.isEof), h]
  simp

/-- Behind the tokens before the first `eof` there is one, or nothing. -/
theorem getD_length_takeWhile (tokens : List Token) :
    tokens.getD (tokens.takeWhile fun token => !token.isEof).length .eof = .eof := by
  induction tokens with
  | nil => rfl
  | cons token tokens ih =>
    cases htoken : token.isEof with
    | true =>
      obtain rfl := Token.isEof_eq_true.mp htoken
      simp [htoken]
    | false => simpa [htoken] using ih

end

/-- The tokens of a list up to the first `eof`. -/
def untilEof (tokens : List Token) : List Token := tokens.takeWhile fun token => !token.isEof

/-- `RefusedAt tokens error place` says that the list comes to the place and cannot go on there with
the token that the error is about. -/
structure RefusedAt (tokens : List Token) (error : ParseError) (place : Place) : Prop where
  position_le : error.position ≤ (untilEof tokens).length
  after?_eq : (awaiting 0).after? ((untilEof tokens).take error.position) = some place
  next?_eq : place.next? (tokens.getD error.position .eof) = none
  /-- It is not complete at its end. -/
  ne_behind : tokens.getD error.position .eof = .eof → place ≠ behind 0
  error_eq : error = place.complaint ⟨tokens.getD error.position .eof, error.position⟩

section

variable {tokens : List Token} {place : Place}

/-- A token that may not stand where it does is refused there. -/
theorem refusedAt_token {before after : List Located} {next : Located}
    (hlocated : (Input.ofTokens 0 tokens).tokens = before ++ next :: after)
    (hplace : (awaiting 0).after? (before.map Located.token) = some place)
    (hnext : place.next? next.token = none) :
    RefusedAt tokens (place.complaint next) place := by
  -- Without their places the tokens are those of the list up to its end.
  have hsplit : untilEof tokens
      = before.map Located.token ++ next.token :: after.map Located.token := by
    rw [untilEof, ← Input.map_token_ofTokens tokens 0, hlocated, List.map_append, List.map_cons]
  have hposition : (place.complaint next).position = (before.map Located.token).length := by
    rw [Place.position_complaint, Input.position_of_tokens_ofTokens hlocated, Nat.zero_add,
      List.length_map]
  have htoken : tokens.getD (place.complaint next).position .eof = next.token := by
    rw [hposition]
    exact getD_of_takeWhile_eq hsplit
  -- The token is one of those before the end, so it is not the end itself.
  have hmem : next.token ∈ untilEof tokens := by simp [hsplit]
  have hnot := List.mem_takeWhile_imp hmem
  constructor
  · rw [hposition, hsplit, List.length_append]
    exact Nat.le_add_right _ _
  · rw [hposition, hsplit, List.take_left]
    exact hplace
  · rw [htoken]
    exact hnext
  · intro heof
    rw [← htoken, heof] at hnot
    exact absurd hnot (by decide)
  · rw [htoken, Place.position_complaint]

/-- Where the list ends too early it is refused at its end. -/
theorem refusedAt_ending (hplace : (awaiting 0).after? (untilEof tokens) = some place)
    (hopen : place ≠ behind 0) :
    RefusedAt tokens (place.complaint ⟨.eof, (untilEof tokens).length⟩) place := by
  have htoken : tokens.getD (untilEof tokens).length .eof = .eof := getD_length_takeWhile tokens
  constructor
  · rw [Place.position_complaint]
  · rw [Place.position_complaint, List.take_length]
    exact hplace
  · rw [Place.position_complaint, htoken]
    rcases place with groups | groups <;> rfl
  · exact fun _ => hopen
  · rw [Place.position_complaint, htoken]

end

/-- **A list of tokens that is no expression comes to a place where it is refused.** -/
theorem exists_refusedAt_of_parse {tokens : List Token} {error : ParseError}
    (h : Expr.parseTokens tokens = .error (.parse error))
    (hshallow : ∀ limit position, error ≠ .nestingTooDeep limit position) :
    ∃ place, RefusedAt tokens error place := by
  have hmap : (Input.ofTokens 0 tokens).tokens.map Located.token = untilEof tokens :=
    Input.map_token_ofTokens tokens 0
  have hstop : (Input.ofTokens 0 tokens).stop = .ending (untilEof tokens).length := by
    rw [Input.stop_ofTokens_eq, ← hmap, List.length_map, Nat.zero_add]
  have hrefusal := Input.refusal_of_parseWithin (by decide) h
  -- The refusal is taken apart by its cause, so its indices have to be variables.
  generalize herror : Error.parse error = failure at hrefusal
  generalize hlocated : (Input.ofTokens 0 tokens).tokens = located at hrefusal
  cases hrefusal with
  | @token before after next place hplace hnext =>
    obtain rfl := Error.parse.inj herror
    exact ⟨place, refusedAt_token hlocated hplace hnext⟩
  | @ending _ position place hstop' hplace hopen =>
    obtain rfl := Error.parse.inj herror
    obtain rfl := Stop.ending.inj (hstop.symm.trans hstop')
    rw [← hlocated, hmap] at hplace
    exact ⟨place, refusedAt_ending hplace hopen⟩
  | fault hfault => cases herror
  | tooDeep limit position => exact absurd (Error.parse.inj herror) (hshallow limit position)

/-- No expression goes on with a token that is refused. -/
theorem RefusedAt.not_isExpression {tokens : List Token} {error : ParseError} {place : Place}
    (h : RefusedAt tokens error place) (more : List Token) :
    ¬ IsExpression ((untilEof tokens).take error.position
      ++ tokens.getD error.position .eof :: more) := by
  rintro ⟨e, n, hderives⟩
  -- the tokens of an expression lead on everywhere
  have hall := after?_of_derives hderives 0
  obtain ⟨place', hplace', hrest⟩ := Place.after?_append_eq_some.mp hall
  obtain rfl := Option.some.inj (h.after?_eq.symm.trans hplace')
  obtain ⟨place'', hnext, -⟩ := Place.after?_cons_eq_some.mp hrest
  exact nomatch h.next?_eq.symm.trans hnext

/-- **Errors are reported at the earliest token.**  The tokens before it are the beginning of an
expression, and with it they are not; at the end they are none themselves.  They give the cause too:
a complete expression leaves a token that trails, an expression directly inside of an open group
leaves a parenthesis missing, and where every expression goes on with a factor the token is
illegal. -/
theorem refused_at_earliest_token (tokens : List Token) (error : ParseError)
    (h : (Parser.ofTokens tokens).parse.1 = .error (.parse error))
    (hshallow : ∀ limit position, error ≠ .nestingTooDeep limit position) :
    let ts := untilEof tokens
    let i := error.position
    let token := tokens.getD i .eof
    let before := ts.take i
    i ≤ ts.length ∧
    (∃ more, IsExpression (before ++ more)) ∧
    (token ≠ .eof → ∀ more, ¬ IsExpression (before ++ token :: more)) ∧
    (token = .eof → ¬ IsExpression before) ∧
    (error = .trailingTokens token i ∨ error = .missingClosingParenthesis i ∨
      error = .illegalToken token i) ∧
    (error = .trailingTokens token i ↔ IsExpression before) ∧
    (error = .missingClosingParenthesis i ↔
      ∃ outer inner, before = outer ++ .openParen :: inner ∧ IsExpression inner) ∧
    (error = .illegalToken token i ↔
      ∀ more, IsExpression (before ++ more) →
        ∃ factor rest, more = factor ++ rest ∧ IsFactor factor) := by
  intro ts i token before
  have hparse : Expr.parseTokens tokens = .error (.parse error) :=
    (Parser.outcome_ofTokens tokens).symm.trans h
  obtain ⟨place, hrefused⟩ := exists_refusedAt_of_parse hparse hshallow
  have hplace : (awaiting 0).after? before = some place := hrefused.after?_eq
  -- The complaint says which of the three kinds of places it was made at, ...
  have htrailing : error = .trailingTokens token i ↔ place = behind 0 :=
    (Eq.congr_left hrefused.error_eq).trans place.complaint_eq_trailingTokens_iff
  have hmissing : error = .missingClosingParenthesis i ↔ ∃ groups, place = behind (groups + 1) :=
    (Eq.congr_left hrefused.error_eq).trans place.complaint_eq_missingClosingParenthesis_iff
  have hillegal : error = .illegalToken token i ↔ ∃ groups, place = awaiting groups :=
    (Eq.congr_left hrefused.error_eq).trans place.complaint_eq_illegalToken_iff
  -- ... and what is before the place says the same of it.
  have hwhole : IsExpression before ↔ place = behind 0 := by
    rw [isExpression_iff_after?, hplace, Option.some.injEq]
  refine ⟨hrefused.position_le, exists_isExpression_of_after? hplace, ?_, ?_, ?_, ?_, ?_, ?_⟩
  · exact fun _ more => hrefused.not_isExpression more
  · intro heof hexpression
    exact hrefused.ne_behind heof (hwhole.mp hexpression)
  · rw [htrailing, hmissing, hillegal]
    rcases place with groups | _ | groups
    · exact .inr (.inr ⟨groups, rfl⟩)
    · exact .inl rfl
    · exact .inr (.inl ⟨groups, rfl⟩)
  · exact htrailing.trans hwhole.symm
  · exact hmissing.trans (exists_group_iff hplace).symm
  · exact hillegal.trans (begins_with_factor_iff hplace).symm

/-- A second operand in a group: what stands before it is an expression directly inside of the
group, and could be closed, but no expression goes on with the operand. -/
theorem refused_at_earliest_token_in_group :
    let before : List Token :=
      [.openParen, .number (.integer 1), .plus, .minus, .identifier "x"]
    let tokens := before ++ [.number (.integer 2), .closeParen]
    let error : ParseError := .missingClosingParenthesis 5
    (Parser.ofTokens tokens).parse.1 = .error (.parse error) ∧
      (∀ limit position, error ≠ .nestingTooDeep limit position) ∧
      (∃ more, IsExpression (before ++ more)) ∧
      (∀ more, ¬ IsExpression (before ++ .number (.integer 2) :: more)) ∧
      ∃ outer inner, before = outer ++ .openParen :: inner ∧ IsExpression inner := by
  intro before tokens error
  have hparse : (Parser.ofTokens tokens).parse.1 = .error (.parse error) := by
    with_unfolding_all rfl
  have hshallow : ∀ limit position, error ≠ .nestingTooDeep limit position := fun _ _ => nofun
  obtain ⟨-, hprefix, hnone, -, -, -, hmissing, -⟩ :=
    refused_at_earliest_token tokens error hparse hshallow
  exact ⟨hparse, hshallow, hprefix, hnone nofun, hmissing.mp rfl⟩

end Abacus
