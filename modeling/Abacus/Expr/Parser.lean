import Abacus.Expr.Descent

/-!
# Parsing

A parser is made of a source in any state and reads what is to come of it.  It reads once; asked
again it gives the same answer.

## Main definitions

* `Parser` — a source that waits to be parsed, or what came of it.
* `Parser.ofText`, `Parser.ofTokens` — the parsers of a text and of a list of tokens.
* `Parser.parse` — the answer, and the parser that remembers it.
* `Expr.parse` — the expression that a text is.
* `Expr.parseTokens` — the expression that a list of tokens is.
-/

namespace Abacus

/-- A source that waits to be parsed, or the outcome. -/
inductive Parser (σ : Type)
  | ready (source : σ)
  | settled (outcome : Except Error Expr)

namespace Parser

/-- The parser of a text, which it reads as far as it has to. -/
def ofText (text : String) : Parser Lexer := ready (.ofString text)

/-- The parser of a list of tokens. -/
def ofTokens (tokens : List Token) : Parser TokenQueue := ready (.ofList tokens)

/-- The outcome, whether it is known yet or not. -/
def outcome {σ : Type} [TokenSource σ] : Parser σ → Except Error Expr
  | ready source => Descent.parse source
  | settled outcome => outcome

/-- Parses, unless that was done before. -/
def parse {σ : Type} [TokenSource σ] (parser : Parser σ) : Except Error Expr × Parser σ :=
  let outcome := parser.outcome
  (outcome, settled outcome)

end Parser

namespace Expr

/-- The expression that a text is; positions are byte offsets. -/
def parse (text : String) : Except Error Expr := (Cursor.ofString text).input.parse

/-- The expression that a list of tokens is, up to the first `eof`; positions are places in it. -/
def parseTokens (tokens : List Token) : Except Error Expr := (Input.ofTokens 0 tokens).parse

end Expr

end Abacus
