import Abacus.Number.Arithmetic

/-!
# Tokens

## Main definitions

* `Token` — the words that an expression is written in.
* `Token.text` — the written form of a token.
* `Token.ofSymbol?` — the token that is a single given character.
* `Operator.ofToken?` — the operator that a token stands for between two sides.
-/

namespace Abacus

/-- A word of an expression, or the end of it. -/
inductive Token
  | eof
  | number (value : Number)
  | identifier (name : String)
  | plus
  | minus
  | star
  | slash
  | openParen
  | closeParen
  deriving BEq, Repr

namespace Token

/-- The written form of a token; the end has none and is described. -/
def text : Token → String
  | eof => "end of input"
  | number value => value.text
  | identifier name => name
  | plus => "+"
  | minus => "-"
  | star => "*"
  | slash => "/"
  | openParen => "("
  | closeParen => ")"

/-- The token that is written as a single character which is part of no name and no number. -/
def ofSymbol? : Char → Option Token
  | '+' => some plus
  | '-' => some minus
  | '*' => some star
  | '/' => some slash
  | '(' => some openParen
  | ')' => some closeParen
  | _ => none

/-- Whether the token is the end. -/
def isEof : Token → Bool
  | eof => true
  | _ => false

@[simp] theorem isEof_eq_true {token : Token} : token.isEof = true ↔ token = eof := by
  cases token <;> simp [isEof]

theorem isEof_of_ofSymbol? {c : Char} {token : Token} (h : ofSymbol? c = some token) :
    token.isEof = false := by
  unfold ofSymbol? at h
  split at h <;> cases h <;> rfl

end Token

/-- The operator that a token stands for between two sides. -/
def Operator.ofToken? : Token → Option Operator
  | .plus => some .add
  | .minus => some .subtract
  | .star => some .multiply
  | .slash => some .divide
  | _ => none

end Abacus
