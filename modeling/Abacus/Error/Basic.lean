import Abacus.Error.Evaluation
import Abacus.Error.Lexical
import Abacus.Error.Parsing

/-!
# Errors of any kind

From a text to its value there are three steps that can fail: its division into tokens, the reading
of these as an expression, and the evaluation.

## Main definitions

* `Error` — an error of one of the steps.
* `Error.message`, `Error.position?` — its wording, and its place in the text or the tokens.
-/

namespace Abacus

/-- An error of one of the three steps. -/
inductive Error
  | lex (error : LexError)
  | parse (error : ParseError)
  | eval (error : EvalError)
  deriving BEq, Repr

namespace Error

/-- What is reported. -/
def message : Error → String
  | lex error => error.message
  | parse error => error.message
  | eval error => error.message

/-- Where it stands; an evaluation has no place. -/
def position? : Error → Option Nat
  | lex error => some error.position
  | parse error => some error.position
  | eval _ => none

end Error

end Abacus
