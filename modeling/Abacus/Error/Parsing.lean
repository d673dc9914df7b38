import Abacus.Token.Basic

/-!
# What can go wrong in a sequence of tokens

## Main definitions

* `ParseError` — the causes, each with the position where it stands.
* `ParseError.message`, `ParseError.position` — their wording and their place.
-/

namespace Abacus

/-- Why a sequence of tokens is not an expression. -/
inductive ParseError
  /-- A token at a place where an operand has to begin, and that begins none. -/
  | illegalToken (token : Token) (position : Nat)
  /-- A token inside of a group at a place where the group has to go on or to be closed. -/
  | missingClosingParenthesis (position : Nat)
  /-- A token behind a complete expression. -/
  | trailingTokens (token : Token) (position : Nat)
  /-- A token that makes the expression deeper than the limit. -/
  | nestingTooDeep (limit position : Nat)
  deriving BEq, Repr

namespace ParseError

/-- Where the token stands that the error is about. -/
def position : ParseError → Nat
  | illegalToken _ position => position
  | missingClosingParenthesis position => position
  | trailingTokens _ position => position
  | nestingTooDeep _ position => position

/-- What is reported for a faulty sequence. -/
def message : ParseError → String
  | illegalToken token _ => "Illegal token in factor: " ++ token.text
  | missingClosingParenthesis _ => "Missing closing parenthesis"
  | trailingTokens _ _ => "Trailing tokens after expression"
  | nestingTooDeep limit position =>
    "Expression nested deeper than " ++ limit.repr ++ " levels at position " ++ position.repr

end ParseError

end Abacus
