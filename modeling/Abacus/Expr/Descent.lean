import Abacus.Expr.Grammar
import Abacus.Token.Source

/-!
# Reading from a source

The grammar for tokens that come one at a time.  A rule looks at the next token and notes where it
stands, takes it if it can go on with it, and otherwise leaves it for the rule that called.  So the
source is never asked for more than the one token ahead, and an error is reported before anything
behind it is looked at.

A chain of operands gets deeper with each of them and ends where it passes the limit, if not
before; so reading comes to an end whatever the source hands out.

## Main definitions

* `Taken` — what was read of a source, and the source behind it; `Taken.join` joins two sides.
* `Descent` — reads an operand or an expression from a source.
* `Descent.look`, `Descent.nextOperator` — the token ahead.
* `Descent.extend`, `Descent.chain` — operands joined by the operators of one level.
* `Descent.factor`, `Descent.termOver`, `Descent.expression` — the grammar.
* `Descent.parseWithin`, `Descent.parse` — reads all that is to come as one expression.
-/

namespace Abacus

/-- What was read of a source: a tree, its depth, and the source behind it. -/
structure Taken (σ : Type) where
  expr : Expr
  depth : Nat
  source : σ

namespace Taken

variable {σ : Type}

/-- Two sides joined by the operator at `position`; the source is that behind the right side. -/
def join (limit : Nat) (left : Taken σ) (operator : Operator) (position : Nat)
    (right : Taken σ) : Except Error (Taken σ) :=
  let depth := max left.depth right.depth + 1
  if limit < depth then .error (.tooDeep limit position)
  else .ok ⟨.operation left.expr operator right.expr, depth, right.source⟩

/-- What is joined is nearer to the limit than its left side. -/
theorem limit_sub_depth_join_lt {limit position : Nat} {left right joined : Taken σ}
    {operator : Operator} (h : left.join limit operator position right = .ok joined) :
    limit - joined.depth < limit - left.depth := by
  unfold join at h
  dsimp only at h
  split at h
  · exact nomatch h
  · cases h
    dsimp only
    omega

end Taken

/-- Reads the beginning of what is to come of a source. -/
abbrev Descent (σ : Type) := σ → Except Error (Taken σ)

namespace Descent

variable {σ : Type} [TokenSource σ]

/-! ### The token ahead -/

/-- Looks at the next token: it, where it stands, and the source that has it ahead. -/
def look (source : σ) : Except Error (Token × Nat × σ) :=
  match TokenSource.peek source with
  | (.error error, _) => .error (.lex error)
  | (.ok token, source) => .ok (token, TokenSource.position source, source)

/-- The source behind the token ahead. -/
def pass (source : σ) : σ := (TokenSource.consume source).2

/-- Takes the next token if it is an operator of the level. -/
def nextOperator (level : Operator → Bool) (source : σ) :
    Except Error (Option (Operator × Nat) × σ) :=
  (look source).map fun (token, position, source) =>
    match Operator.ofTokenAt? level token with
    | some operator => (some (operator, position), pass source)
    | none => (none, source)

/-! ### Chains of operands -/

variable (limit : Nat)

/-- Goes on from `left` as long as operators of the level follow. -/
def extend (level : Operator → Bool) (operand : Descent σ) (left : Taken σ) :
    Except Error (Taken σ) :=
  match nextOperator level left.source with
  | .error error => .error error
  | .ok (none, source) => .ok { left with source }
  | .ok (some (operator, position), source) =>
    match operand source with
    | .error error => .error error
    | .ok right =>
      match _h : left.join limit operator position right with
      | .error error => .error error
      | .ok joined => extend level operand joined
termination_by limit - left.depth
decreasing_by exact Taken.limit_sub_depth_join_lt _h

/-- Operands joined from the left by the operators of one level. -/
def chain (level : Operator → Bool) (operand : Descent σ) : Descent σ := fun source =>
  (operand source).bind (extend limit level operand)

/-! ### The grammar -/

/-- The factor with a minus sign at `position` before it. -/
def negate (position : Nat) (parsed : Taken σ) : Except Error (Taken σ) :=
  match parsed.expr with
  | .constant value => .ok { parsed with expr := .constant (-value) }
  | expr =>
    if limit < parsed.depth + 1 then .error (.tooDeep limit position)
    else
      .ok { parsed with
        expr := .operation (.constant (.integer (-1))) .multiply expr
        depth := parsed.depth + 1 }

/-- Takes the parenthesis that closes a group. -/
def closeGroup (parsed : Taken σ) : Except Error (Taken σ) :=
  (look parsed.source).bind fun (token, position, source) =>
    match token with
    | .closeParen => .ok { parsed with source := pass source }
    | _ => .error (.parse (.missingClosingParenthesis position))

/-- Terms over a descent for factors. -/
def termOver (factor : Descent σ) : Descent σ := chain limit Operator.joinsFactors factor

/-- Expressions over a descent for factors. -/
def expressionOver (factor : Descent σ) : Descent σ :=
  chain limit Operator.joinsTerms (termOver limit factor)

/-- What stands in a group, with the parenthesis that closes it. -/
def groupOver (factor : Descent σ) : Descent σ := fun source =>
  (expressionOver limit factor source).bind closeGroup

/-- Factors that contain others only as `inner` reads them, and none if there is no `inner`. -/
def factorOver (inner : Option (Descent σ)) : Descent σ := fun source =>
  (look source).bind fun (_, position, source) =>
    let (token, source) := TokenSource.consume source
    match token.getD .eof, inner with
    | .number value, _ => .ok ⟨.constant value, 1, source⟩
    | .identifier name, _ => .ok ⟨.reference name, 1, source⟩
    | .minus, some factor => (factor source).bind (negate limit position)
    | .openParen, some factor => groupOver limit factor source
    | .minus, none => .error (.tooDeep limit position)
    | .openParen, none => .error (.tooDeep limit position)
    | token, _ => .error (.parse (.illegalToken token position))

/-- Factors with room for so many groups and minus signs inside of each other. -/
def factor : (room : Nat) → Descent σ
  | 0 => factorOver limit none
  | room + 1 => factorOver limit (some (factor room))

/-- Expressions with room for so many groups and minus signs inside of each other. -/
def expression (room : Nat) : Descent σ := expressionOver limit (factor limit room)

/-- The expression that was read, if it was all that there is. -/
def complete (parsed : Taken σ) : Except Error Expr :=
  match TokenSource.atEnd parsed.source with
  | (.error error, _) => .error (.lex error)
  | (.ok true, _) => .ok parsed.expr
  | (.ok false, source) =>
    (look source).bind fun (token, position, _) =>
      .error (.parse (.trailingTokens token position))

/-- Reads all that is to come of a source as one expression within the given limit. -/
def parseWithin (source : σ) : Except Error Expr :=
  (expression limit limit source).bind complete

/-- Reads all that is to come of a source as one expression. -/
def parse (source : σ) : Except Error Expr := parseWithin maxDepth source

end Descent

end Abacus
