import Abacus.Token.Scan

/-!
# Sources of tokens

A source hands out tokens one at a time.  A token has to be looked at before it can be taken, and
taking without having looked gives nothing.  There are two sources: a lexer, which reads a text as
far as it is asked to, and a queue of tokens that are known beforehand.

## Main definitions

* `TokenSource` — looking, taking, where the source stands, and what is to come.
* `TokenSource.atEnd` — whether the next token is the end; that is a look.
* `Lexer`, `TokenQueue` — the two sources.
* `lex` — all tokens of a text, looked at and taken one after the other.
-/

namespace Abacus

/-- A source of tokens with one token of lookahead. -/
class TokenSource (σ : Type) where
  /-- Looks at the next token; looking again shows the same one. -/
  peek : σ → Except LexError Token × σ
  /-- Takes the token that was looked at, if one was. -/
  consume : σ → Option Token × σ
  /-- Where the source stands: at the token that was looked at, or else behind the last one. -/
  position : σ → Nat
  /-- The tokens to come, the one that was looked at among them. -/
  input : σ → Input

/-- Whether the next token is the end. -/
def TokenSource.atEnd {σ : Type} [TokenSource σ] (source : σ) : Except LexError Bool × σ :=
  let (token, source) := peek source
  (token.map Token.isEof, source)

/-- A source that reads a text; positions are byte offsets. -/
structure Lexer where
  /-- The place behind what was read. -/
  cursor : Cursor
  /-- The token that was looked at. -/
  lookahead : Option Located
  deriving Repr

namespace Lexer

/-- The source of all tokens of a text. -/
def ofString (text : String) : Lexer := ⟨Cursor.ofString text, none⟩

/-- Looks at the next token.  A fault is no token and is not kept, but the cursor stays behind what
was read of it. -/
def peek (lexer : Lexer) : Except LexError Token × Lexer :=
  match lexer.lookahead with
  | some next => (.ok next.token, lexer)
  | none =>
    match lexer.cursor.scan with
    | (.ok next, cursor) => (.ok next.token, ⟨cursor, some next⟩)
    | (.error error, cursor) => (.error error, ⟨cursor, none⟩)

/-- Takes the token that was looked at. -/
def consume (lexer : Lexer) : Option Token × Lexer :=
  (lexer.lookahead.map Located.token, ⟨lexer.cursor, none⟩)

/-- The beginning of the token that was looked at, or the place of the cursor. -/
def position (lexer : Lexer) : Nat :=
  match lexer.lookahead with
  | some next => next.position
  | none => lexer.cursor.offset

/-- The tokens to come. -/
def input (lexer : Lexer) : Input :=
  match lexer.lookahead with
  | some next => .ofNext next lexer.cursor.input
  | none => lexer.cursor.input

instance : TokenSource Lexer := ⟨peek, consume, position, input⟩

/-- The token that was looked at is kept, and what comes behind it comes from the cursor. -/
theorem exists_lookahead_of_peek {lexer looked : Lexer} {token : Token}
    (h : lexer.peek = (.ok token, looked)) :
    ∃ next, looked.lookahead = some next ∧ next.token = token ∧
      lexer.input = .ofNext next looked.cursor.input := by
  obtain ⟨cursor, _ | next⟩ := lexer
  · cases hs : cursor.scan with
    | mk result after =>
      cases result with
      | error error => simp [peek, hs] at h
      | ok next =>
        simp only [peek, hs] at h
        obtain ⟨htoken, rfl⟩ := Prod.mk.inj h
        exact ⟨next, rfl, Except.ok.inj htoken, Cursor.input_of_scan_ok hs⟩
  · obtain ⟨htoken, rfl⟩ := Prod.mk.inj h
    exact ⟨next, rfl, Except.ok.inj htoken, rfl⟩

/-- Taking a token that is not the end leaves one less. -/
theorem length_input_consume_lt {lexer looked : Lexer}
    (h : TokenSource.atEnd lexer = (.ok false, looked)) :
    looked.consume.2.input.tokens.length < lexer.input.tokens.length := by
  cases hpeek : lexer.peek with
  | mk result looked' =>
    have hatEnd : TokenSource.atEnd lexer = (result.map Token.isEof, looked') := by
      show ((lexer.peek.1).map Token.isEof, lexer.peek.2) = _
      rw [hpeek]
    obtain ⟨hresult, rfl⟩ := Prod.mk.inj (hatEnd.symm.trans h)
    cases result with
    | error error => exact nomatch hresult
    | ok token =>
      obtain ⟨next, -, rfl, hinput⟩ := exists_lookahead_of_peek hpeek
      have hnext : next.token.isEof = false := Except.ok.inj hresult
      rw [hinput, Input.ofNext, hnext]
      exact Nat.lt_succ_self _

/-- All tokens to come, each looked at and taken, and `eof` behind them. -/
def readAll (lexer : Lexer) : Except LexError (List Token) :=
  match _h : TokenSource.atEnd lexer with
  | (.error error, _) => .error error
  | (.ok true, _) => .ok [.eof]
  | (.ok false, looked) => (looked.consume.2.readAll).map (looked.consume.1.toList ++ ·)
termination_by lexer.input.tokens.length
decreasing_by exact length_input_consume_lt _h

end Lexer

/-- All tokens of a text, with `eof` behind them, or the first fault. -/
def lex (text : String) : Except LexError (List Token) := (Lexer.ofString text).readAll

/-- A source of given tokens; positions are places in their list.  It stays at the first `eof`, and
behind the last token if there is none. -/
structure TokenQueue where
  /-- The tokens not taken yet. -/
  rest : List Token
  /-- The number of tokens taken. -/
  index : Nat
  /-- Whether the next token was looked at. -/
  peeked : Bool
  deriving Repr

namespace TokenQueue

/-- The source of the tokens of a list. -/
def ofList (tokens : List Token) : TokenQueue := ⟨tokens, 0, false⟩

/-- The next token. -/
def next (queue : TokenQueue) : Token := queue.rest.headD .eof

/-- The queue behind the next token, which the end never lets pass. -/
def step (queue : TokenQueue) : TokenQueue :=
  if queue.next.isEof then ⟨queue.rest, queue.index, false⟩
  else ⟨queue.rest.tail, queue.index + 1, false⟩

/-- Looks at the next token. -/
def peek (queue : TokenQueue) : Except LexError Token × TokenQueue :=
  (.ok queue.next, { queue with peeked := true })

/-- Takes the token that was looked at. -/
def consume (queue : TokenQueue) : Option Token × TokenQueue :=
  if queue.peeked then (some queue.next, queue.step) else (none, queue)

/-- The tokens to come. -/
def input (queue : TokenQueue) : Input := .ofTokens queue.index queue.rest

instance : TokenSource TokenQueue := ⟨peek, consume, index, input⟩

end TokenQueue

end Abacus
