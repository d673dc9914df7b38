/-!
# What can go wrong in a text

## Main definitions

* `LexError` — the causes, each with the offset where it stands.
* `LexError.message`, `LexError.position` — their wording and their place.
-/

namespace Abacus

/-- Why a text is not a sequence of tokens.  Positions are byte offsets. -/
inductive LexError
  /-- A character that no token begins with. -/
  | unexpectedInput (input : Char) (position : Nat)
  /-- A run of characters that begins like a number and is none. -/
  | malformedNumber (text : String) (position : Nat)
  deriving DecidableEq, Repr

namespace LexError

/-- Where the faulty token begins. -/
def position : LexError → Nat
  | unexpectedInput _ position => position
  | malformedNumber _ position => position

/-- What is reported for a faulty token. -/
def message : LexError → String
  | unexpectedInput input position =>
    "Unexpected input \"" ++ String.singleton input ++ "\" at position " ++ position.repr
  | malformedNumber text position =>
    "Malformed number \"" ++ text ++ "\" at position " ++ position.repr

end LexError

end Abacus
