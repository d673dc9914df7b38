import Abacus.Token.Source
import Mathlib.Logic.Function.Iterate

/-!
# What a source shows

A look at a source shows the first of the tokens to come, its end, or the fault that it comes to;
and taking what was shown leaves the tokens behind it.  Whatever reads a source by looking and
taking therefore depends on the tokens to come only, be they scanned as they are asked for or known
beforehand.

## Main definitions

* `TokenSource.Shows` — a look that found a token, and the source that has it ahead.
* `LawfulTokenSource` — sources that show what is to come of them.
* `TokenSource.advance` — looks at the next token and takes it.

## Main results

* `TokenSource.peek_of_fault`, `TokenSource.peek_of_ending`, `TokenSource.peek_of_cons` — a look at
  a source, by what is to come of it.
* `TokenSource.peek_iterate_advance`, `TokenSource.peek_iterate_advance_ending` — the token with a
  given number, and where it stands.
* `Lexer.readAll_eq_toTokens` — **reading a text to its end gives the tokens to come.**
-/

namespace Abacus

namespace TokenSource

variable {σ : Type} [TokenSource σ]

/-- A look at `source` shows `next` and leaves `looked`, from where it can be taken; `later` comes
behind it, unless it is the end. -/
structure Shows (source looked : σ) (next : Located) (later : Input) : Prop where
  peek_eq : peek source = (.ok next.token, looked)
  input_eq : input source = .ofNext next later
  position_eq : position looked = next.position
  input_looked : input looked = input source
  consume_eq : (consume looked).1 = some next.token
  input_consume : next.token.isEof = false → input (consume looked).2 = later

theorem Shows.atEnd_eq {source looked : σ} {next : Located} {later : Input}
    (h : Shows source looked next later) : atEnd source = (.ok next.token.isEof, looked) := by
  show (((peek source).1).map Token.isEof, (peek source).2) = _
  rw [h.peek_eq]
  rfl

/-- Looks at the next token and takes it. -/
def advance (source : σ) : σ := (consume (peek source).2).2

end TokenSource

/-- A source that shows what is to come of it. -/
class LawfulTokenSource (σ : Type) [TokenSource σ] : Prop where
  /-- A look comes to a fault or shows a token. -/
  peek_cases (source : σ) :
    (∃ error looked, TokenSource.peek source = (.error error, looked) ∧
      TokenSource.input source = ⟨[], .fault error⟩) ∨
    ∃ looked next later, TokenSource.Shows source looked next later

/-- A lexer that comes to a fault has nothing to come but the fault. -/
theorem Lexer.input_of_peek_error {lexer looked : Lexer} {error : LexError}
    (h : lexer.peek = (.error error, looked)) : lexer.input = ⟨[], .fault error⟩ := by
  obtain ⟨cursor, _ | next⟩ := lexer
  · cases hscan : cursor.scan with
    | mk result after =>
      simp only [peek, hscan] at h
      cases result with
      | error error' =>
        cases h
        exact Cursor.input_of_scan_error hscan
      | ok next => cases h
  · cases h

instance : LawfulTokenSource Lexer where
  peek_cases lexer := by
    cases hpeek : lexer.peek with
    | mk result looked =>
      cases result with
      | error error => exact .inl ⟨error, looked, hpeek, Lexer.input_of_peek_error hpeek⟩
      | ok token =>
        obtain ⟨next, hlookahead, rfl, hinput⟩ := Lexer.exists_lookahead_of_peek hpeek
        obtain ⟨cursor, lookahead⟩ := looked
        obtain rfl : lookahead = some next := hlookahead
        exact .inr ⟨_, next, cursor.input, hpeek, hinput, rfl, hinput.symm, rfl, fun _ => rfl⟩

instance : LawfulTokenSource TokenQueue where
  peek_cases queue := by
    obtain ⟨rest, index, peeked⟩ := queue
    refine .inr ⟨⟨rest, index, true⟩, ⟨rest.headD .eof, index⟩,
      .ofTokens (index + 1) rest.tail, rfl, ?_, rfl, rfl, rfl, ?_⟩
    · cases rest with
      | nil => rfl
      | cons token tokens => rfl
    · intro hnext
      have hstep : (TokenQueue.mk rest index true).step = ⟨rest.tail, index + 1, false⟩ :=
        if_neg (by rw [TokenQueue.next, hnext]; exact Bool.false_ne_true)
      show (TokenQueue.mk rest index true).step.input = _
      rw [hstep]
      rfl

namespace TokenSource

variable {σ : Type} [TokenSource σ] [LawfulTokenSource σ] {source : σ}

/-! ### A look, by what is to come -/

theorem peek_of_fault {error : LexError} (h : input source = ⟨[], .fault error⟩) :
    ∃ looked, peek source = (.error error, looked) := by
  rcases LawfulTokenSource.peek_cases source with
    ⟨error', looked, hpeek, hinput⟩ | ⟨looked, next, later, hshows⟩
  · rw [h] at hinput
    cases hinput
    exact ⟨looked, hpeek⟩
  · have hinput := h.symm.trans hshows.input_eq
    unfold Input.ofNext at hinput
    split at hinput <;> exact nomatch hinput

theorem peek_of_ending {last : Nat} (h : input source = ⟨[], .ending last⟩) :
    ∃ looked later, Shows source looked ⟨.eof, last⟩ later := by
  rcases LawfulTokenSource.peek_cases source with
    ⟨error, _, -, hinput⟩ | ⟨looked, next, later, hshows⟩
  · exact nomatch h.symm.trans hinput
  · have hinput := h.symm.trans hshows.input_eq
    unfold Input.ofNext at hinput
    -- A token that is no end would be listed, and nothing is.
    split at hinput
    · next heof =>
      obtain ⟨token, position⟩ := next
      obtain rfl := Token.isEof_eq_true.mp heof
      cases hinput
      exact ⟨looked, later, hshows⟩
    · exact nomatch congrArg Input.tokens hinput

theorem peek_of_cons {next : Located} {tokens : List Located} {stop : Stop}
    (h : input source = ⟨next :: tokens, stop⟩) :
    ∃ looked, Shows source looked next ⟨tokens, stop⟩ ∧ next.token.isEof = false := by
  rcases LawfulTokenSource.peek_cases source with
    ⟨error, _, -, hinput⟩ | ⟨looked, next', later, hshows⟩
  · exact nomatch h.symm.trans hinput
  · have hinput := h.symm.trans hshows.input_eq
    unfold Input.ofNext at hinput
    -- An end would leave nothing to list.
    split at hinput
    · exact nomatch congrArg Input.tokens hinput
    · next heof =>
      obtain ⟨tokens', stop'⟩ := later
      cases hinput
      exact ⟨looked, hshows, Bool.eq_false_iff.mpr heof⟩

theorem atEnd_of_fault {error : LexError} (h : input source = ⟨[], .fault error⟩) :
    ∃ looked, atEnd source = (.error error, looked) := by
  obtain ⟨looked, hpeek⟩ := peek_of_fault h
  refine ⟨looked, ?_⟩
  show (((peek source).1).map Token.isEof, (peek source).2) = _
  rw [hpeek]
  rfl

/-! ### Reading on -/

theorem input_advance_of_cons {next : Located} {tokens : List Located} {stop : Stop}
    (h : input source = ⟨next :: tokens, stop⟩) : input (advance source) = ⟨tokens, stop⟩ := by
  obtain ⟨looked, hshows, hnext⟩ := peek_of_cons h
  rw [advance, hshows.peek_eq]
  exact hshows.input_consume hnext

/-- As many tokens are gone as were taken. -/
theorem input_iterate_advance {tokens later : List Located} {stop : Stop} :
    ∀ {source : σ}, input source = ⟨tokens ++ later, stop⟩ →
      input (advance^[tokens.length] source) = ⟨later, stop⟩ := by
  induction tokens with
  | nil => exact fun h => h
  | cons next tokens ih => exact fun h => ih (input_advance_of_cons h)

/-- **The token with a given number is shown, where it stands,** by a look behind so many others. -/
theorem peek_iterate_advance {before after : List Located} {next : Located} {stop : Stop}
    (h : input source = ⟨before ++ next :: after, stop⟩) :
    ∃ looked, peek (advance^[before.length] source) = (.ok next.token, looked) ∧
      position looked = next.position := by
  obtain ⟨looked, hshows, -⟩ := peek_of_cons (input_iterate_advance h)
  exact ⟨looked, hshows.peek_eq, hshows.position_eq⟩

/-- Behind all tokens the end is shown. -/
theorem peek_iterate_advance_ending {tokens : List Located} {last : Nat}
    (h : input source = ⟨tokens, .ending last⟩) :
    ∃ looked, peek (advance^[tokens.length] source) = (.ok .eof, looked) ∧
      position looked = last := by
  rw [← List.append_nil tokens] at h
  obtain ⟨looked, _, hshows⟩ := peek_of_ending (input_iterate_advance h)
  exact ⟨looked, hshows.peek_eq, hshows.position_eq⟩

end TokenSource

/-! ### Reading to the end -/

namespace Lexer

variable {lexer : Lexer}

/-- Reading goes on unless the next token is the end. -/
theorem readAll_of_atEnd {result : Except LexError Bool} {looked : Lexer}
    (h : TokenSource.atEnd lexer = (result, looked)) :
    lexer.readAll = result.bind fun ended =>
      if ended then .ok [.eof]
      else (looked.consume.2.readAll).map (looked.consume.1.toList ++ ·) := by
  rw [readAll]
  split
  · next h' => cases h.symm.trans h'; rfl
  · next h' => cases h.symm.trans h'; rfl
  · next h' => cases h.symm.trans h'; rfl

theorem readAll_of_fault {error : LexError} (h : lexer.input = ⟨[], .fault error⟩) :
    lexer.readAll = .error error := by
  obtain ⟨looked, hatEnd⟩ := @TokenSource.atEnd_of_fault Lexer _ _ lexer _ h
  rw [readAll_of_atEnd hatEnd]
  rfl

theorem readAll_of_ending {last : Nat} (h : lexer.input = ⟨[], .ending last⟩) :
    lexer.readAll = .ok [.eof] := by
  obtain ⟨looked, later, hshows⟩ := @TokenSource.peek_of_ending Lexer _ _ lexer _ h
  rw [readAll_of_atEnd hshows.atEnd_eq]
  rfl

theorem readAll_of_cons {next : Located} {tokens : List Located} {stop : Stop}
    (h : lexer.input = ⟨next :: tokens, stop⟩) :
    ∃ after : Lexer, after.input = ⟨tokens, stop⟩ ∧
      lexer.readAll = after.readAll.map (next.token :: ·) := by
  obtain ⟨looked, hshows, hnext⟩ := @TokenSource.peek_of_cons Lexer _ _ lexer _ _ _ h
  have hconsume : looked.consume.1 = some next.token := hshows.consume_eq
  refine ⟨looked.consume.2, hshows.input_consume hnext, ?_⟩
  rw [readAll_of_atEnd hshows.atEnd_eq, hnext, hconsume]
  rfl

/-- **Reading a text to its end gives the tokens to come.** -/
theorem readAll_eq_toTokens (lexer : Lexer) : lexer.readAll = lexer.input.toTokens := by
  obtain ⟨⟨tokens, stop⟩, hinput⟩ : ∃ input, lexer.input = input := ⟨_, rfl⟩
  rw [hinput]
  induction tokens generalizing lexer with
  | nil =>
    cases stop with
    | ending last => exact readAll_of_ending hinput
    | fault error => exact readAll_of_fault hinput
  | cons next tokens ih =>
    obtain ⟨after, hafter, hread⟩ := readAll_of_cons hinput
    rw [hread, ih after hafter]
    cases stop <;> rfl

end Lexer

end Abacus
