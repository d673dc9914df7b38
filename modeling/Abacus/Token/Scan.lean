import Abacus.Text.Blank
import Abacus.Text.Cursor
import Abacus.Token.Input

/-!
# Tokens of a text

A token is as long as it can be.  A digit begins a run of digits, letters, underscores and points,
which has to be a number as a whole; so `1a` and `1..0` are faults and not a number before something
else.  A letter or an underscore begins a name.  Any other token is a single character.  Letters and
digits are those of ASCII.

## Main definitions

* `startsName`, `isNamePart`, `isNumberPart` — the characters of names and numbers.
* `Cursor.scanToken`, `Cursor.scan` — reads the next token.
* `Cursor.input` — all tokens from a place on.
-/

namespace Abacus

/-- A character that a name begins with. -/
def startsName (c : Char) : Bool := c.isAlpha || c == '_'

/-- A character of a name. -/
def isNamePart (c : Char) : Bool := startsName c || c.isDigit

/-- A character of a run that has to be a number. -/
def isNumberPart (c : Char) : Bool := isNamePart c || c == '.'

/-- The token of a run of number characters that begins at `position`. -/
def Token.ofNumberText (text : String) (position : Nat) : Except LexError Token :=
  match Number.ofLiteral? text with
  | some value => .ok (.number value)
  | none => .error (.malformedNumber text position)

namespace Cursor

/-- Reads the token that begins with the next character `c`, which is no blank.  What a malformed
number is written with is read too; a character that begins no token is not. -/
def scanToken (cursor : Cursor) (c : Char) : Except LexError Token × Cursor :=
  if c.isDigit then
    let run := cursor.readWhile cursor.offset isNumberPart
    (Token.ofNumberText run.1 cursor.offset, run.2)
  else if startsName c then
    let run := cursor.readWhile cursor.offset isNamePart
    (.ok (.identifier run.1), run.2)
  else
    match Token.ofSymbol? c with
    | some token => (.ok token, cursor.step)
    | none => (.error (.unexpectedInput c cursor.offset), cursor)

/-- Reads the token that begins here, or finds the end. -/
def scanHere (cursor : Cursor) : Except LexError Located × Cursor :=
  match cursor.peek with
  | none => (.ok ⟨.eof, cursor.offset⟩, cursor)
  | some c =>
    let read := cursor.scanToken c
    (read.1.map (⟨·, cursor.offset⟩), read.2)

/-- Skips blanks and reads the next token, or finds the end. -/
def scan (cursor : Cursor) : Except LexError Located × Cursor :=
  (cursor.skipWhile isBlank).scanHere

/-- A token takes at least one character. -/
theorem length_ahead_scanToken_lt {cursor : Cursor} {c : Char} {token : Token}
    (hc : cursor.peek = some c) (h : (cursor.scanToken c).1 = .ok token) :
    (cursor.scanToken c).2.ahead.length < cursor.ahead.length := by
  obtain ⟨cs, hcs⟩ := List.head?_eq_some_iff.1 hc
  unfold scanToken at h ⊢
  by_cases hd : c.isDigit = true
  · have hp : isNumberPart c = true := by simp [isNumberPart, isNamePart, hd]
    rw [if_pos hd]
    exact length_ahead_skipWhile_lt hcs hp
  · rw [if_neg hd] at h ⊢
    by_cases hs : startsName c = true
    · have hp : isNamePart c = true := by simp [isNamePart, hs]
      rw [if_pos hs]
      exact length_ahead_skipWhile_lt hcs hp
    · rw [if_neg hs] at h ⊢
      cases ht : Token.ofSymbol? c with
      | none => rw [ht] at h; exact nomatch h
      | some token => simp [step, hcs]

theorem length_ahead_scan_lt {cursor after : Cursor} {next : Located}
    (h : cursor.scan = (.ok next, after)) (hn : next.token.isEof = false) :
    after.ahead.length < cursor.ahead.length := by
  unfold scan scanHere at h
  cases hc : (cursor.skipWhile isBlank).peek with
  | none => rw [hc] at h; cases h; exact nomatch hn
  | some c =>
    rw [hc] at h
    obtain ⟨ht, rfl⟩ := Prod.mk.inj h
    refine Nat.lt_of_lt_of_le ?_ (length_ahead_skipWhile_le isBlank cursor)
    cases hr : ((cursor.skipWhile isBlank).scanToken c).1 with
    | error error => rw [hr] at ht; exact nomatch ht
    | ok token => exact length_ahead_scanToken_lt hc hr

/-- All tokens from a place on. -/
def input (cursor : Cursor) : Input :=
  match _h : cursor.scan with
  | (.error error, _) => ⟨[], .fault error⟩
  | (.ok next, after) =>
    if _hn : next.token.isEof then ⟨[], .ending next.position⟩ else after.input.cons next
termination_by cursor.ahead.length
decreasing_by exact length_ahead_scan_lt _h (Bool.eq_false_iff.2 _hn)

/-- A fault stops the tokens. -/
theorem input_of_scan_error {cursor after : Cursor} {error : LexError}
    (h : cursor.scan = (.error error, after)) : cursor.input = ⟨[], .fault error⟩ := by
  rw [input]
  split
  · next h' => cases h.symm.trans h'; rfl
  · next h' => exact nomatch h.symm.trans h'

/-- A token comes first, and then what comes from behind it on. -/
theorem input_of_scan_ok {cursor after : Cursor} {next : Located}
    (h : cursor.scan = (.ok next, after)) : cursor.input = .ofNext next after.input := by
  rw [input]
  split
  · next h' => exact nomatch h.symm.trans h'
  · next h' =>
    cases h.symm.trans h'
    by_cases hn : next.token.isEof = true <;> simp [Input.ofNext, hn]

end Cursor

end Abacus
