import Abacus.Error.Basic
import Abacus.Proofs.Token.Tiling

/-!
# Other positions

Positions are counted from the beginning of a text or of a list of tokens.  The same characters or
tokens behind others have positions that are greater by the length of these, and the tokens of a
text are found in it where their lexemes start.

## Main definitions

* `Located.mapPosition`, `Input.mapPositions`, `Error.mapPosition` — the same with other positions.
* `Input.Within` — all positions are of a given kind.

## Main results

* `Input.mapPositions_congr`, `Input.within_mapPositions` — only the positions that occur matter.
* `inputAt_add`, `Input.ofTokens_add` — what is farther behind has greater positions.
* `map_tokens_ofTokens_eq_locate` — the places of tokens in their list, and in the text.
-/

namespace Abacus

/-! ### The same with other positions -/

variable (f : Nat → Nat)

def LexError.mapPosition : LexError → LexError
  | unexpectedInput input position => unexpectedInput input (f position)
  | malformedNumber text position => malformedNumber text (f position)

def ParseError.mapPosition : ParseError → ParseError
  | illegalToken token position => illegalToken token (f position)
  | missingClosingParenthesis position => missingClosingParenthesis (f position)
  | trailingTokens token position => trailingTokens token (f position)
  | nestingTooDeep limit position => nestingTooDeep limit (f position)

/-- The same error in another place. -/
def Error.mapPosition : Error → Error
  | lex error => lex (error.mapPosition f)
  | parse error => parse (error.mapPosition f)
  | eval error => eval error

/-- The same token in another place. -/
def Located.mapPosition (located : Located) : Located := ⟨located.token, f located.position⟩

def Stop.mapPosition : Stop → Stop
  | ending position => ending (f position)
  | fault error => fault (error.mapPosition f)

/-- The same tokens in other places. -/
def Input.mapPositions (input : Input) : Input :=
  ⟨input.tokens.map (Located.mapPosition f), input.stop.mapPosition f⟩

variable {f}

@[simp] theorem LexError.position_mapPosition (error : LexError) :
    (error.mapPosition f).position = f error.position := by
  cases error <;> rfl

@[simp] theorem ParseError.position_mapPosition (error : ParseError) :
    (error.mapPosition f).position = f error.position := by
  cases error <;> rfl

@[simp] theorem LexError.mapPosition_id (error : LexError) : error.mapPosition id = error := by
  cases error <;> rfl

@[simp] theorem ParseError.mapPosition_id (error : ParseError) : error.mapPosition id = error := by
  cases error <;> rfl

@[simp] theorem Error.mapPosition_id (error : Error) : error.mapPosition id = error := by
  cases error <;> simp [mapPosition]

@[simp] theorem Input.mapPositions_id (input : Input) : input.mapPositions id = input := by
  obtain ⟨tokens, stop⟩ := input
  have htokens : tokens.map (Located.mapPosition id) = tokens := List.map_id tokens
  cases stop <;> simp [mapPositions, htokens, Stop.mapPosition]

theorem IsFault.mapPosition_eq {cs : List Char} {fault : Nat → LexError} (h : IsFault cs fault)
    (offset : Nat) : (fault offset).mapPosition f = fault (f offset) := by
  cases h <;> rfl

/-! ### The positions that occur -/

/-- Where the tokens stop. -/
def Stop.position : Stop → Nat
  | ending position => position
  | fault error => error.position

/-- All tokens stand at positions that satisfy `P`, and they stop at one. -/
structure Input.Within (P : Nat → Prop) (input : Input) : Prop where
  tokens : ∀ next ∈ input.tokens, P next.position
  stop : P input.stop.position

namespace Input

variable {g : Nat → Nat} {P : Nat → Prop} {input : Input}

theorem mapPositions_comp (input : Input) :
    (input.mapPositions f).mapPositions g = input.mapPositions (g ∘ f) := by
  obtain ⟨tokens, stop⟩ := input
  have hstop : (stop.mapPosition f).mapPosition g = stop.mapPosition (g ∘ f) := by
    rcases stop with position | _ | _ <;> rfl
  simp only [mapPositions, hstop, List.map_map]
  rfl

/-- Other positions do not matter than those that occur. -/
theorem mapPositions_congr (h : input.Within P) (hfg : ∀ p, P p → f p = g p) :
    input.mapPositions f = input.mapPositions g := by
  obtain ⟨tokens, stop⟩ := input
  have htokens : tokens.map (Located.mapPosition f) = tokens.map (Located.mapPosition g) := by
    refine List.map_congr_left fun next hnext => ?_
    rw [Located.mapPosition, Located.mapPosition, hfg _ (h.tokens next hnext)]
  have hstop : stop.mapPosition f = stop.mapPosition g := by
    have hposition := hfg _ h.stop
    -- The end and both kinds of fault carry one position each.
    rcases stop with position | ⟨c, position⟩ | ⟨text, position⟩
    · exact congrArg Stop.ending hposition
    · exact congrArg (Stop.fault ∘ LexError.unexpectedInput c) hposition
    · exact congrArg (Stop.fault ∘ LexError.malformedNumber text) hposition
  rw [mapPositions, mapPositions, htokens, hstop]

theorem mapPositions_eq_self (h : input.Within P) (hf : ∀ p, P p → f p = p) :
    input.mapPositions f = input :=
  (mapPositions_congr h hf).trans input.mapPositions_id

theorem within_mapPositions (h : input.Within fun p => P (f p)) :
    (input.mapPositions f).Within P := by
  obtain ⟨tokens, stop⟩ := input
  refine ⟨?_, ?_⟩
  · intro moved hmoved
    obtain ⟨next, hnext, rfl⟩ := List.mem_map.mp hmoved
    exact h.tokens next hnext
  · rcases stop with position | _ | _ <;> exact h.stop

end Input

/-! ### Farther behind -/

theorem locate_add (p : Nat) (pieces : List Piece) : ∀ offset,
    locate (offset + p) pieces = (locate offset pieces).map (Located.mapPosition (· + p)) := by
  induction pieces with
  | nil => intro offset; rfl
  | cons piece pieces ih =>
    intro offset
    have hblanks : offset + p + byteLength piece.blanks = offset + byteLength piece.blanks + p := by
      omega
    have hlexeme : offset + byteLength piece.blanks + p + byteLength piece.lexeme
        = offset + byteLength piece.blanks + byteLength piece.lexeme + p := by
      omega
    rw [locate, hblanks, hlexeme, ih, locate, List.map_cons]
    rfl

/-- **Characters that are farther behind have tokens that are farther behind.** -/
theorem inputAt_add (offset p : Nat) (cs : List Char) :
    inputAt (offset + p) cs = (inputAt offset cs).mapPositions (· + p) := by
  -- The tiling does not depend on where the text starts, only the positions do.
  obtain ⟨pieces, blanks, rest, htiles, hblanks, hrest⟩ := exists_tiles cs
  have hplace : offset + p + byteLength (written pieces) + byteLength blanks
      = offset + byteLength (written pieces) + byteLength blanks + p := by
    omega
  rcases hrest with rfl | ⟨fault, hfault⟩
  · rw [List.append_nil] at htiles
    rw [htiles.inputAt_eq offset (inputAt_of_blanks _ hblanks),
      htiles.inputAt_eq (offset + p) (inputAt_of_blanks _ hblanks), locate_add, hplace]
    rfl
  · rw [htiles.inputAt_eq offset (inputAt_of_isFault _ hblanks hfault),
      htiles.inputAt_eq (offset + p) (inputAt_of_isFault _ hblanks hfault), locate_add, hplace,
      Input.mapPositions, Stop.mapPosition, hfault.mapPosition_eq]

/-- They are all behind the place where the characters begin. -/
theorem inputAt_within (offset : Nat) (cs : List Char) : (inputAt offset cs).Within (offset ≤ ·) := by
  rw [← Nat.zero_add offset, inputAt_add]
  refine Input.within_mapPositions ⟨fun next _ => ?_, ?_⟩
  · rw [Nat.zero_add]
    exact Nat.le_add_left _ _
  · rw [Nat.zero_add]
    exact Nat.le_add_left _ _

namespace Input

/-- Tokens of a list that begins farther behind are farther behind. -/
theorem ofTokens_add (p : Nat) (ts : List Token) : ∀ start,
    ofTokens (start + p) ts = (ofTokens start ts).mapPositions (· + p) := by
  induction ts with
  | nil => intro start; rfl
  | cons token ts ih =>
    intro start
    have hnext : start + p + 1 = start + 1 + p := by omega
    rw [ofTokens, ofTokens, ofNext, ofNext, hnext, ih]
    split <;> rfl

/-- The places in a list are those up to its end. -/
theorem within_ofTokens (ts : List Token) : ∀ start,
    (ofTokens start ts).Within (· ≤ start + ts.length) := by
  induction ts with
  | nil => intro start; exact ⟨List.forall_mem_nil _, Nat.le_refl _⟩
  | cons token ts ih =>
    intro start
    have hlength : start + (token :: ts).length = start + 1 + ts.length := by
      rw [List.length_cons]; omega
    have hstart : start ≤ start + (token :: ts).length := Nat.le_add_right _ _
    have hlater := ih (start + 1)
    rw [ofTokens, ofNext]
    -- At an end the numbering stops, and what stands behind is not counted.
    split
    · exact ⟨List.forall_mem_nil _, hstart⟩
    · rw [hlength] at hstart ⊢
      exact ⟨List.forall_mem_cons.mpr ⟨hstart, hlater.tokens⟩, hlater.stop⟩

/-! ### Places in a list and in a text -/

/-- The first `eof` of a list may be left out if nothing comes behind it. -/
theorem ofTokens_append_eof (ts : List Token) : ∀ start,
    ofTokens start (ts ++ [.eof]) = ofTokens start ts := by
  induction ts with
  | nil => intro start; rfl
  | cons token ts ih => intro start; rw [List.cons_append, ofTokens, ofTokens, ih]

variable {pieces : List Piece} (hpieces : ∀ piece ∈ pieces, piece.token.isEof = false)

include hpieces

theorem stop_ofTokens_map_token :
    ∀ start, (ofTokens start (pieces.map Piece.token)).stop = .ending (start + pieces.length) := by
  induction pieces with
  | nil => intro start; rfl
  | cons piece pieces ih =>
    intro start
    obtain ⟨hpiece, hpieces⟩ := List.forall_mem_cons.mp hpieces
    have hlength : start + (piece :: pieces).length = start + 1 + pieces.length := by
      rw [List.length_cons]; omega
    rw [List.map_cons, ofTokens, ofNext, hpiece, hlength, ← ih hpieces]
    rfl

/-- **The tokens of a text are found in it where their lexemes start.** -/
theorem map_tokens_ofTokens_eq_locate (last : List Char) : ∀ start offset,
    (∀ number < pieces.length, f (start + number) = offset + startOf last pieces number) →
    (ofTokens start (pieces.map Piece.token)).tokens.map (Located.mapPosition f)
      = locate offset pieces := by
  induction pieces with
  | nil => intro start offset _; rfl
  | cons piece pieces ih =>
    intro start offset hf
    obtain ⟨hpiece, hpieces⟩ := List.forall_mem_cons.mp hpieces
    have hstart : f start = offset + byteLength piece.blanks := hf 0 (Nat.succ_pos _)
    -- The places of the later tokens, seen from behind the first.
    have hlater : ∀ number < pieces.length, f (start + 1 + number)
        = offset + byteLength piece.blanks + byteLength piece.lexeme
          + startOf last pieces number := by
      intro number hnumber
      have hnext := hf (number + 1) (Nat.succ_lt_succ hnumber)
      rw [startOf] at hnext
      rw [Nat.add_assoc start, Nat.add_comm 1, hnext]
      omega
    rw [List.map_cons, ofTokens, ofNext, hpiece, locate, ← ih hpieces _ _ hlater, ← hstart]
    rfl

end Input

end Abacus
