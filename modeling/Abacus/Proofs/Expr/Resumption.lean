import Abacus.Proofs.Expr.Buffering
import Abacus.Proofs.Token.SourceRuns

/-!
# Parsing from where a source stands

A source may have been looked at and taken from before it is parsed.  What is read of it then is
what is read of the text or the tokens from its place on, and errors are as much farther behind as
the place is.  A parser that is asked again gives the answer that it gave.

## Main results

* `Parser.outcome_ready_lexer`, `Parser.outcome_ready_queue` — a source that stands somewhere.
* `Parser.parse_iterate` — the same answer each time.
* `parse_resumes` — **parsing after any run of a source.**
-/

namespace Abacus

namespace Parser

/-- What is read of a lexer is what is read of its text from its place on. -/
theorem outcome_ready_lexer {cs : List Char} {lexer : Lexer} (h : lexer.IsIn cs) :
    ∃ before after, cs = before ++ after ∧ byteLength before = TokenSource.position lexer ∧
      (ready lexer).outcome = (ofText (String.ofList after)).outcome.mapError
        (Error.mapPosition (· + TokenSource.position lexer)) := by
  obtain ⟨before, after, hcs, hbefore, hinput⟩ := h.exists_append
  refine ⟨before, after, hcs, hbefore, ?_⟩
  rw [outcome_ofText, Expr.parse, Cursor.ofString, String.toList_ofList]
  refine Descent.parse_eq_mapError (hinput.trans ?_)
  rw [← Nat.zero_add lexer.position]
  exact inputAt_add 0 _ after

/-- What is read of a queue is what is read of its list from its place on. -/
theorem outcome_ready_queue {ts : List Token} {queue : TokenQueue} (h : queue.IsIn ts) :
    (ready queue).outcome = (ofTokens (ts.drop (TokenSource.position queue))).outcome.mapError
      (Error.mapPosition (· + TokenSource.position queue)) := by
  rw [outcome_ofTokens]
  have hinput : queue.input = Input.ofTokens (0 + queue.index) (ts.drop queue.index) := by
    rw [Nat.zero_add, ← h.rest_eq]
    rfl
  exact Descent.parse_eq_mapError (hinput.trans (Input.ofTokens_add _ _ 0))

/-- However often it was asked before, a parser gives the answer that it gives at first. -/
theorem parse_iterate {σ : Type} [TokenSource σ] (parser : Parser σ) (times : Nat) :
    ((fun parser : Parser σ => parser.parse.2)^[times] parser).parse.1 = parser.parse.1 := by
  induction times generalizing parser with
  | zero => rfl
  | succ times ih => exact ih parser.parse.2

end Parser

/-- **Parsing after any run of a source.**  Whatever was asked of the lexer of a text, its position
is the length of a beginning of the text, and what is read then is what is read of the rest of the
text, with errors as much farther behind.  Whatever was asked of a queue of tokens, its position is
a place in their list or the end, and what is read then is what is read of the list from this place
on, with errors as much farther behind.  And a parser gives the same answer however often it is
asked. -/
theorem parse_resumes :
    (∀ (text : String) (calls : List SourceCall),
      let lexer := TokenSource.run (Lexer.ofString text) calls
      let p := TokenSource.position lexer
      ∃ before after, text.toList = before ++ after ∧ byteLength before = p ∧
        (Parser.ready lexer).parse.1
          = (Parser.ofText (String.ofList after)).parse.1.mapError (Error.mapPosition (· + p))) ∧
    (∀ (ts : List Token) (calls : List SourceCall),
      let queue := TokenSource.run (TokenQueue.ofList ts) calls
      let p := TokenSource.position queue
      p ≤ ts.length ∧
        (Parser.ready queue).parse.1
          = (Parser.ofTokens (ts.drop p)).parse.1.mapError (Error.mapPosition (· + p))) ∧
    (∀ (σ : Type) [TokenSource σ] (parser : Parser σ) (times : Nat),
      ((fun parser : Parser σ => parser.parse.2)^[times] parser).parse.1 = parser.parse.1) := by
  refine ⟨fun text calls => ?_, fun ts calls => ?_, fun σ _ => Parser.parse_iterate⟩
  · exact Parser.outcome_ready_lexer (Lexer.isIn_run text calls)
  · have hin := TokenQueue.isIn_run ts calls
    exact ⟨hin.index_le, Parser.outcome_ready_queue hin⟩

end Abacus
