import Abacus.Error.Lexical
import Abacus.Token.Basic

/-!
# Tokens to come

What a reader of tokens has before it: the tokens up to the end, each with its position, and how
they stop.  They stop at the end of the text, or at a place where the text is faulty; a fault is
only met by a reader that comes so far.

## Main definitions

* `Located` — a token and where it stands.
* `Stop` — how a sequence of tokens stops.
* `Input` — the tokens to come.
* `Input.ofTokens` — tokens that are given as a list; they are counted, and end at the first `eof`.
-/

namespace Abacus

/-- A token and the position where it begins. -/
structure Located where
  token : Token
  position : Nat
  deriving Repr

/-- How a sequence of tokens stops. -/
inductive Stop
  /-- It is complete, and its end has a position too. -/
  | ending (position : Nat)
  /-- The text goes on with what is no token. -/
  | fault (error : LexError)
  deriving Repr

/-- The tokens to come, the end not among them, and how they stop. -/
structure Input where
  tokens : List Located
  stop : Stop
  deriving Repr

namespace Input

/-- The same input with one more token in front. -/
def cons (token : Located) (input : Input) : Input := { input with tokens := token :: input.tokens }

/-- The input whose next token is the given one: the end, or a token before the rest. -/
def ofNext (next : Located) (later : Input) : Input :=
  if next.token.isEof then ⟨[], .ending next.position⟩ else later.cons next

/-- The tokens of a list up to the first `eof`, in places counted from `start`. -/
def ofTokens (start : Nat) : List Token → Input
  | [] => ⟨[], .ending start⟩
  | token :: tokens => ofNext ⟨token, start⟩ (ofTokens (start + 1) tokens)

/-- The tokens of a text with `eof` behind them, unless it is faulty. -/
def toTokens (input : Input) : Except LexError (List Token) :=
  match input.stop with
  | .ending _ => .ok (input.tokens.map Located.token ++ [.eof])
  | .fault error => .error error

@[simp] theorem tokens_cons (token : Located) (input : Input) :
    (input.cons token).tokens = token :: input.tokens := rfl

@[simp] theorem stop_cons (token : Located) (input : Input) :
    (input.cons token).stop = input.stop := rfl

end Input

end Abacus
