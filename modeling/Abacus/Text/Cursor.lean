/-!
# A place in a text

A cursor stands between two characters of a text.  It can look at the character ahead and step over
it, and it says how far it has come, counted in bytes of the text's UTF-8 form.

## Main definitions

* `Cursor` — the characters behind (nearest first), those ahead, and the offset between them.
* `Cursor.ofString` — the start of a text.
* `Cursor.peek`, `Cursor.advance`, `Cursor.atEnd` — one character.
* `Cursor.skipWhile`, `Cursor.textFrom`, `Cursor.readWhile` — a run of characters.
-/

namespace Abacus

/-- The number of bytes that characters take in UTF-8. -/
def byteLength : List Char → Nat
  | [] => 0
  | c :: cs => c.utf8Size + byteLength cs

@[simp] theorem byteLength_nil : byteLength [] = 0 := rfl

@[simp] theorem byteLength_cons (c : Char) (cs : List Char) :
    byteLength (c :: cs) = c.utf8Size + byteLength cs := rfl

@[simp] theorem byteLength_append (as bs : List Char) :
    byteLength (as ++ bs) = byteLength as + byteLength bs := by
  induction as with
  | nil => simp
  | cons c as ih => simp [ih, Nat.add_assoc]

/-- A place in a text. -/
structure Cursor where
  /-- The characters behind, the nearest first. -/
  behind : List Char
  /-- The characters ahead, the nearest first. -/
  ahead : List Char
  /-- The number of bytes behind. -/
  offset : Nat
  deriving Repr

namespace Cursor

/-- The start of a text, given by its characters. -/
def ofList (cs : List Char) : Cursor := ⟨[], cs, 0⟩

/-- The start of a text. -/
def ofString (text : String) : Cursor := ofList text.toList

/-- The next character, if one is left. -/
def peek (cursor : Cursor) : Option Char := cursor.ahead.head?

/-- Whether nothing is left to read. -/
def atEnd (cursor : Cursor) : Bool := cursor.ahead.isEmpty

/-- The cursor one character on; at the end it stays where it is. -/
def step (cursor : Cursor) : Cursor :=
  match cursor.ahead with
  | [] => cursor
  | c :: cs => ⟨c :: cursor.behind, cs, cursor.offset + c.utf8Size⟩

/-- Reads one character: it, if there was one, and the cursor behind it. -/
def advance (cursor : Cursor) : Option Char × Cursor := (cursor.peek, cursor.step)

/-- The cursor behind the longest run of characters ahead that satisfy `p`. -/
def skipWhile (p : Char → Bool) (cursor : Cursor) : Cursor :=
  let run := cursor.ahead.takeWhile p
  ⟨run.reverse ++ cursor.behind, cursor.ahead.dropWhile p, cursor.offset + byteLength run⟩

/-- The last characters that take `size` bytes of those given nearest first, put back into reading
order in front of `later`. -/
def lastBytes (size : Nat) (behind later : List Char) : List Char :=
  match behind with
  | [] => later
  | c :: cs => if size = 0 then later else lastBytes (size - c.utf8Size) cs (c :: later)

/-- The text between the offset `start`, where the cursor was before, and the cursor. -/
def textFrom (start : Nat) (cursor : Cursor) : String :=
  String.ofList (lastBytes (cursor.offset - start) cursor.behind [])

/-- Skips the longest run of characters that satisfy `p` and reads back the text from the offset
`start` to the end of the run. -/
def readWhile (start : Nat) (p : Char → Bool) (cursor : Cursor) : String × Cursor :=
  let after := cursor.skipWhile p
  (after.textFrom start, after)

/-- The whole text, independent of where the cursor stands. -/
def source (cursor : Cursor) : List Char := cursor.behind.reverse ++ cursor.ahead

theorem length_ahead_skipWhile_le (p : Char → Bool) (cursor : Cursor) :
    (cursor.skipWhile p).ahead.length ≤ cursor.ahead.length :=
  (List.dropWhile_sublist p).length_le

/-- A run that begins with the next character is not empty. -/
theorem length_ahead_skipWhile_lt {p : Char → Bool} {cursor : Cursor} {c : Char} {cs : List Char}
    (h : cursor.ahead = c :: cs) (hp : p c = true) :
    (cursor.skipWhile p).ahead.length < cursor.ahead.length := by
  simp only [skipWhile, h, List.dropWhile_cons_of_pos hp, List.length_cons]
  exact Nat.lt_succ_of_le (List.dropWhile_sublist p).length_le

end Cursor

end Abacus
