import Abacus.Error.Basic
import Abacus.Expr.Basic
import Abacus.Token.Input

/-!
# Tokens as expressions

    expression := term (('+' | '-') term)*
    term       := factor (('*' | '/') factor)*
    factor     := '-' factor | number | name | '(' expression ')'

Operators of one level join from the left.  A minus sign before a constant turns its sign, and
before anything else it stands for a product with minus one.

Both the nesting of groups and minus signs and the depth of the tree are limited, by `maxDepth` in
the end; the rules are given for any limit.  The nesting is counted down as *room*: a factor with no
room left may not contain another one.

## Main definitions

* `Parsed` — what was read of a sequence of tokens, and what is left of it.
* `Rule` — reads the beginning of a sequence as an operand or an expression.
* `Rule.extend`, `Rule.chain` — operands joined by the operators of one level.
* `Rule.factor`, `Rule.term`, `Rule.expression` — the grammar.
* `Input.parseWithin`, `Input.parse` — reads all that is to come as one expression, within a limit
  and within that of the language.
-/

namespace Abacus

/-- The limit of the nesting and of the depth of an expression. -/
def maxDepth : Nat := 256

/-- The complaint that the token at `position` makes an expression deeper than `limit`. -/
def Error.tooDeep (limit position : Nat) : Error := .parse (.nestingTooDeep limit position)

/-- What was read of a sequence of at most `n` tokens: a tree, its depth, and the tokens left, of
which there are fewer. -/
structure Parsed (n : Nat) where
  expr : Expr
  depth : Nat
  rest : List Located
  rest_lt : rest.length < n

namespace Parsed

/-- The tokens behind the next one are fewer still. -/
theorem length_lt_of_rest_eq {n : Nat} {parsed : Parsed n} {next : Located}
    {tokens : List Located} (h : parsed.rest = next :: tokens) : tokens.length < n := by
  have hlt := parsed.rest_lt
  rw [h, List.length_cons] at hlt
  omega

/-- The same, for a longer sequence. -/
def widen {m n : Nat} (h : m ≤ n) (parsed : Parsed m) : Parsed n :=
  { parsed with rest_lt := Nat.lt_of_lt_of_le parsed.rest_lt h }

/-- Two sides joined by the operator at `position`; the tokens left are those of the right side. -/
def join (limit : Nat) {m n : Nat} (left : Parsed n) (operator : Operator) (position : Nat)
    (right : Parsed m) (h : m < n) : Except Error { joined : Parsed n // joined.rest.length < m } :=
  let depth := max left.depth right.depth + 1
  if limit < depth then .error (.tooDeep limit position)
  else
    .ok ⟨⟨.operation left.expr operator right.expr, depth, right.rest,
      Nat.lt_trans right.rest_lt h⟩, right.rest_lt⟩

/-- The factor with a minus sign at `position` before it. -/
def negate (limit : Nat) {n : Nat} (position : Nat) (parsed : Parsed n) :
    Except Error (Parsed n) :=
  match parsed.expr with
  | .constant value => .ok { parsed with expr := .constant (-value) }
  | expr =>
    if limit < parsed.depth + 1 then .error (.tooDeep limit position)
    else
      .ok { parsed with
        expr := .operation (.constant (.integer (-1))) .multiply expr
        depth := parsed.depth + 1 }

end Parsed

/-- Reads the beginning of a sequence of tokens. -/
abbrev Rule := (tokens : List Located) → Except Error (Parsed tokens.length)

namespace Stop

/-- What comes of looking behind the last token: the fault there, or else the answer that the
position of the end gives. -/
def resolve {α : Type} (stop : Stop) (atEnding : Nat → Except Error α) : Except Error α :=
  match stop with
  | .ending position => atEnding position
  | .fault error => .error (.lex error)

end Stop

/-- Takes the parenthesis that closes a group. -/
def Parsed.closeGroup (stop : Stop) {n : Nat} (parsed : Parsed n) : Except Error (Parsed n) :=
  match _h : parsed.rest with
  | [] => stop.resolve fun position => .error (.parse (.missingClosingParenthesis position))
  | next :: tokens =>
    match next.token with
    | .closeParen =>
      .ok { parsed with
        rest := tokens
        rest_lt := length_lt_of_rest_eq _h }
    | _ => .error (.parse (.missingClosingParenthesis next.position))

namespace Parsed

section CloseGroup

variable {stop : Stop} {n : Nat} {e : Expr} {depth : Nat} {next : Located} {tokens : List Located}

theorem closeGroup_nil {h : ([] : List Located).length < n} :
    closeGroup stop ⟨e, depth, [], h⟩
      = stop.resolve fun position => .error (.parse (.missingClosingParenthesis position)) := rfl

theorem closeGroup_closeParen {h : (next :: tokens).length < n} (hnext : next.token = .closeParen) :
    closeGroup stop ⟨e, depth, next :: tokens, h⟩
      = .ok ⟨e, depth, tokens, Nat.lt_of_succ_lt h⟩ := by
  simp only [closeGroup, hnext]

theorem closeGroup_of_ne {h : (next :: tokens).length < n} (hnext : next.token ≠ .closeParen) :
    closeGroup stop ⟨e, depth, next :: tokens, h⟩
      = .error (.parse (.missingClosingParenthesis next.position)) := by
  cases htoken : next.token with
  | closeParen => exact absurd htoken hnext
  | _ => simp only [closeGroup, htoken]

end CloseGroup

end Parsed

/-! ### Operators by level -/

namespace Operator

/-- The operators that join terms. -/
def joinsTerms : Operator → Bool
  | add | subtract => true
  | multiply | divide => false

/-- The operators that join factors. -/
def joinsFactors : Operator → Bool
  | multiply | divide => true
  | add | subtract => false

/-- The operator that a token stands for, if it is one of a level. -/
def ofTokenAt? (level : Operator → Bool) (token : Token) : Option Operator :=
  (ofToken? token).filter level

end Operator

namespace Rule

/-! ### Chains of operands -/

/-- Goes on from `left` as long as operators of the level follow. -/
def extend (limit : Nat) (stop : Stop) (level : Operator → Bool) (operand : Rule) {n : Nat}
    (left : Parsed n) : Except Error (Parsed n) :=
  match _h : left.rest with
  | [] => stop.resolve fun _ => .ok left
  | next :: tokens =>
    match Operator.ofTokenAt? level next.token with
    | none => .ok left
    | some operator =>
      match operand tokens with
      | .error error => .error error
      | .ok right =>
        match left.join limit operator next.position right (Parsed.length_lt_of_rest_eq _h) with
        | .error error => .error error
        | .ok joined => extend limit stop level operand joined.1
termination_by left.rest.length
decreasing_by rw [_h]; exact Nat.lt_succ_of_lt joined.2

/-- At the end of the tokens a chain ends, unless a fault is met there. -/
theorem extend_of_nil {limit : Nat} {stop : Stop} {level : Operator → Bool} {operand : Rule}
    {n : Nat} {left : Parsed n} (h : left.rest = []) :
    extend limit stop level operand left = stop.resolve fun _ => .ok left := by
  rw [extend]
  split
  · rfl
  · next h' => exact nomatch h.symm.trans h'

/-- A token that is no operator of the level ends a chain and is left to others. -/
theorem extend_of_none {limit : Nat} {stop : Stop} {level : Operator → Bool} {operand : Rule}
    {n : Nat} {left : Parsed n} {next : Located} {tokens : List Located}
    (h : left.rest = next :: tokens) (hop : Operator.ofTokenAt? level next.token = none) :
    extend limit stop level operand left = .ok left := by
  rw [extend]
  split
  · next h' => exact nomatch h.symm.trans h'
  · next h' =>
    obtain ⟨rfl, rfl⟩ := List.cons.inj (h.symm.trans h')
    rw [hop]

/-- An operator of the level joins an operand to the chain, which goes on behind it. -/
theorem extend_of_some {limit : Nat} {stop : Stop} {level : Operator → Bool} {operand : Rule}
    {n : Nat} {left : Parsed n} {next : Located} {tokens : List Located} {operator : Operator}
    (h : left.rest = next :: tokens) (hop : Operator.ofTokenAt? level next.token = some operator) :
    extend limit stop level operand left
      = (operand tokens).bind fun right =>
          (left.join limit operator next.position right (Parsed.length_lt_of_rest_eq h)).bind
            fun joined => extend limit stop level operand joined.1 := by
  rw [extend]
  split
  · next h' => exact nomatch h.symm.trans h'
  · next h' =>
    obtain ⟨rfl, rfl⟩ := List.cons.inj (h.symm.trans h')
    simp only [hop]
    cases operand tokens with
    | error error => rfl
    | ok right =>
      simp only [Except.bind]
      cases left.join limit operator next.position right (Parsed.length_lt_of_rest_eq h) <;> rfl

variable (limit : Nat) (stop : Stop)

/-- Operands joined from the left by the operators of one level. -/
def chain (level : Operator → Bool) (operand : Rule) : Rule := fun tokens =>
  (operand tokens).bind (extend limit stop level operand)

/-! ### The grammar -/

/-- Terms over a rule for factors. -/
def termOver (factor : Rule) : Rule := chain limit stop Operator.joinsFactors factor

/-- Expressions over a rule for factors. -/
def expressionOver (factor : Rule) : Rule :=
  chain limit stop Operator.joinsTerms (termOver limit stop factor)

/-- What stands in a group, with the parenthesis that closes it. -/
def groupOver (factor : Rule) : Rule := fun tokens =>
  (expressionOver limit stop factor tokens).bind (Parsed.closeGroup stop)

/-- Factors that contain others only as `inner` reads them, and none if there is no `inner`. -/
def factorOver (inner : Option Rule) : Rule
  | [] => stop.resolve fun position => .error (.parse (.illegalToken .eof position))
  | next :: tokens =>
    let widen : Parsed tokens.length → Parsed (tokens.length + 1) := Parsed.widen (Nat.le_succ _)
    match next.token, inner with
    | .number value, _ => .ok ⟨.constant value, 1, tokens, Nat.lt_succ_self _⟩
    | .identifier name, _ => .ok ⟨.reference name, 1, tokens, Nat.lt_succ_self _⟩
    | .minus, some factor =>
      (factor tokens).bind fun parsed => (parsed.negate limit next.position).map widen
    | .openParen, some factor => (groupOver limit stop factor tokens).map widen
    | .minus, none => .error (.tooDeep limit next.position)
    | .openParen, none => .error (.tooDeep limit next.position)
    | token, _ => .error (.parse (.illegalToken token next.position))

/-- Factors with room for so many groups and minus signs inside of each other. -/
def factor : (room : Nat) → Rule
  | 0 => factorOver limit stop none
  | room + 1 => factorOver limit stop (some (factor room))

section Factor

variable {limit stop} {room : Nat} {next : Located} {tokens : List Located}

theorem factor_nil : factor limit stop room []
    = stop.resolve fun position => .error (.parse (.illegalToken .eof position)) := by
  cases room <;> rfl

theorem factor_number {value : Number} (h : next.token = .number value) :
    factor limit stop room (next :: tokens)
      = .ok ⟨.constant value, 1, tokens, Nat.lt_succ_self _⟩ := by
  cases room <;> simp only [factor, factorOver, h]

theorem factor_identifier {name : String} (h : next.token = .identifier name) :
    factor limit stop room (next :: tokens)
      = .ok ⟨.reference name, 1, tokens, Nat.lt_succ_self _⟩ := by
  cases room <;> simp only [factor, factorOver, h]

theorem factor_minus (h : next.token = .minus) :
    factor limit stop (room + 1) (next :: tokens)
      = (factor limit stop room tokens).bind fun parsed =>
          (parsed.negate limit next.position).map (.widen (Nat.le_succ _)) := by
  simp only [factor, factorOver, h]

theorem factor_openParen (h : next.token = .openParen) :
    factor limit stop (room + 1) (next :: tokens)
      = (groupOver limit stop (factor limit stop room) tokens).map (.widen (Nat.le_succ _)) := by
  simp only [factor, factorOver, h]

/-- Without room a factor may not contain another one. -/
theorem factor_zero (h : next.token = .minus ∨ next.token = .openParen) :
    factor limit stop 0 (next :: tokens) = .error (.tooDeep limit next.position) := by
  rcases h with h | h <;> simp only [factor, factorOver, h]

/-- Any other token begins no factor. -/
theorem factor_illegal (hnumber : ∀ value, next.token ≠ .number value)
    (hname : ∀ name, next.token ≠ .identifier name) (hminus : next.token ≠ .minus)
    (hopen : next.token ≠ .openParen) :
    factor limit stop room (next :: tokens)
      = .error (.parse (.illegalToken next.token next.position)) := by
  cases hnext : next.token with
  | number value => exact absurd hnext (hnumber value)
  | identifier name => exact absurd hnext (hname name)
  | minus => exact absurd hnext hminus
  | openParen => exact absurd hnext hopen
  | _ => cases room <;> simp only [factor, factorOver, hnext]

end Factor

/-- Terms with room for so many groups and minus signs inside of each other. -/
def term (room : Nat) : Rule := termOver limit stop (factor limit stop room)

/-- Expressions with room for so many groups and minus signs inside of each other. -/
def expression (room : Nat) : Rule := expressionOver limit stop (factor limit stop room)

end Rule

/-- The expression that was read, if it was all that there is. -/
def Parsed.complete (stop : Stop) {n : Nat} (parsed : Parsed n) : Except Error Expr :=
  match parsed.rest with
  | [] => stop.resolve fun _ => .ok parsed.expr
  | next :: _ => .error (.parse (.trailingTokens next.token next.position))

/-- Reads all that is to come as one expression within the given limit. -/
def Input.parseWithin (limit : Nat) (input : Input) : Except Error Expr :=
  (Rule.expression limit input.stop limit input.tokens).bind (Parsed.complete input.stop)

/-- Reads all that is to come as one expression. -/
def Input.parse (input : Input) : Except Error Expr := input.parseWithin maxDepth

end Abacus
