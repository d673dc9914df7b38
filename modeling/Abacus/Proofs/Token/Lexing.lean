import Abacus.Proofs.Token.Sources
import Abacus.Proofs.Token.Tiling

/-!
# The tokens of a text

A text has tokens exactly if it can be tiled by lexemes, and they are the tokens of these; there is
but one such tiling.  The lexer shows them one after the other, each at the offset where its lexeme
starts.  If a text has no tokens, it is tiled up to the first fault.

## Main results

* `input_ofString_of_isTiling`, `input_ofString_of_isFault` — what is to come of a lexer.
* `lex_eq_error_iff` — **the faulty texts**, with their first faults.
* `position_iterate_of_isTiling` — a token stands where its lexeme starts.
* `lex_tiles` — **the texts that have tokens**, with their tokens and where these stand.
-/

namespace Abacus

variable {text : String} {pieces : List Piece} {blanks rest last : List Char}
  {fault : Nat → LexError}

/-- The complaint of a fault is about the place where it stands. -/
theorem IsFault.position_eq (h : IsFault rest fault) (offset : Nat) :
    (fault offset).position = offset := by
  cases h <;> rfl

/-! ### What is to come of a lexer -/

theorem input_ofString_of_isTiling (h : IsTiling text.toList pieces last) :
    TokenSource.input (Lexer.ofString text)
      = ⟨locate 0 pieces, .ending (byteLength (written pieces ++ last))⟩ := by
  have hinput := h.inputAt_eq 0
  rw [Nat.zero_add, h.tiles.eq_append] at hinput
  exact h.tiles.eq_append ▸ hinput

theorem input_ofString_of_isFault (h : Tiles text.toList pieces (blanks ++ rest))
    (hblanks : IsBlanks blanks) (hfault : IsFault rest fault) :
    TokenSource.input (Lexer.ofString text)
      = ⟨locate 0 pieces, .fault (fault (byteLength (written pieces ++ blanks)))⟩ := by
  refine h.inputAt_eq 0 ?_
  rw [inputAt_of_isFault _ hblanks hfault, Nat.zero_add, byteLength_append]

theorem lex_eq_toTokens (text : String) :
    lex text = (TokenSource.input (Lexer.ofString text)).toTokens :=
  Lexer.readAll_eq_toTokens _

/-! ### Texts with and without tokens -/

theorem lex_of_isTiling (h : IsTiling text.toList pieces last) :
    lex text = .ok (pieces.map Piece.token ++ [.eof]) := by
  rw [lex_eq_toTokens, input_ofString_of_isTiling h, Input.toTokens, map_token_locate]

theorem lex_of_isFault (h : Tiles text.toList pieces (blanks ++ rest))
    (hblanks : IsBlanks blanks) (hfault : IsFault rest fault) :
    lex text = .error (fault (byteLength (written pieces ++ blanks))) := by
  rw [lex_eq_toTokens, input_ofString_of_isFault h hblanks hfault]
  rfl

theorem exists_isTiling_of_lex {ts : List Token} (h : lex text = .ok ts) :
    ∃ pieces last, IsTiling text.toList pieces last ∧ pieces.map Piece.token ++ [.eof] = ts := by
  obtain ⟨pieces, blanks, rest, htiles, hblanks, rfl | ⟨fault, hfault⟩⟩ := exists_tiles text.toList
  · rw [List.append_nil] at htiles
    have htiling : IsTiling text.toList pieces blanks := ⟨htiles, hblanks⟩
    exact ⟨pieces, blanks, htiling, Except.ok.inj ((lex_of_isTiling htiling).symm.trans h)⟩
  · exact nomatch (lex_of_isFault htiles hblanks hfault).symm.trans h

/-- **The faulty texts** are tiled up to their first fault, which is complained of. -/
theorem lex_eq_error_iff {error : LexError} : lex text = .error error ↔
    ∃ pieces blanks rest fault, Tiles text.toList pieces (blanks ++ rest) ∧ IsBlanks blanks ∧
      IsFault rest fault ∧ fault (byteLength (written pieces ++ blanks)) = error := by
  constructor
  · intro h
    -- Every text is tiled up to its end or up to a fault, and only the fault is an error.
    obtain ⟨pieces, blanks, rest, htiles, hblanks, rfl | ⟨fault, hfault⟩⟩ :=
      exists_tiles text.toList
    · rw [List.append_nil] at htiles
      exact nomatch (lex_of_isTiling ⟨htiles, hblanks⟩).symm.trans h
    · exact ⟨pieces, blanks, rest, fault, htiles, hblanks, hfault,
        Except.error.inj ((lex_of_isFault htiles hblanks hfault).symm.trans h)⟩
  · rintro ⟨pieces, blanks, rest, fault, htiles, hblanks, hfault, rfl⟩
    exact lex_of_isFault htiles hblanks hfault

/-! ### Where the tokens stand -/

open TokenSource (peek position advance)

/-- The lexer shows every token where its lexeme starts. -/
theorem peek_iterate_of_isTiling {before after : List Piece} {piece : Piece}
    (h : IsTiling text.toList (before ++ piece :: after) last) :
    ∃ looked, peek (advance^[before.length] (Lexer.ofString text)) = (.ok piece.token, looked) ∧
      position looked = byteLength (written before ++ piece.blanks) := by
  obtain ⟨later, hlocate⟩ := locate_append_cons before piece after 0
  have hinput := input_ofString_of_isTiling h
  rw [hlocate, Nat.zero_add] at hinput
  have hshown := TokenSource.peek_iterate_advance hinput
  rwa [length_locate] at hshown

/-- Behind them it shows the end, where the text ends. -/
theorem peek_iterate_ending_of_isTiling (h : IsTiling text.toList pieces last) :
    ∃ looked, peek (advance^[pieces.length] (Lexer.ofString text)) = (.ok .eof, looked) ∧
      position looked = byteLength text.toList := by
  have hshown := TokenSource.peek_iterate_advance_ending (input_ofString_of_isTiling h)
  rwa [length_locate, ← h.tiles.eq_append] at hshown

/-- So a look behind so many others stands where the lexeme with this number starts. -/
theorem position_iterate_of_isTiling (h : IsTiling text.toList pieces last) {number : Nat}
    (hnumber : number ≤ pieces.length) :
    position (peek (advance^[number] (Lexer.ofString text))).2 = startOf last pieces number := by
  -- Some piece is next, or all are taken and the end is.
  rcases Nat.lt_or_eq_of_le hnumber with hlt | rfl
  · obtain ⟨before, piece, after, rfl, rfl⟩ :
        ∃ before piece after, pieces = before ++ piece :: after ∧ before.length = number := by
      refine ⟨pieces.take number, pieces[number], pieces.drop (number + 1), ?_, ?_⟩
      · rw [List.getElem_cons_drop, List.take_append_drop]
      · rw [List.length_take, Nat.min_eq_left hnumber]
    obtain ⟨looked, hpeek, hposition⟩ := peek_iterate_of_isTiling h
    rw [hpeek, startOf_append_cons]
    exact hposition
  · obtain ⟨looked, hpeek, hposition⟩ := peek_iterate_ending_of_isTiling h
    rw [hpeek, startOf_length, ← h.tiles.eq_append]
    exact hposition

/-- **A text has tokens exactly if it is tiled by lexemes,** and it has those that they are the
lexemes of, with the end behind them.  There is one tiling, every piece of it has a lexeme that is
not empty and a token that is not the end, and the lexer shows each token where its lexeme starts
and the end where the text ends. -/
theorem lex_tiles (text : String) :
    (∀ ts, lex text = .ok ts ↔
      ∃ pieces last, IsTiling text.toList pieces last ∧ pieces.map Piece.token ++ [.eof] = ts) ∧
    ∀ pieces last, IsTiling text.toList pieces last →
      text.toList = written pieces ++ last ∧
      (∀ piece ∈ pieces, piece.lexeme ≠ [] ∧ piece.token ≠ .eof) ∧
      (∀ pieces' last', IsTiling text.toList pieces' last' → pieces = pieces' ∧ last = last') ∧
      (∀ before piece after, pieces = before ++ piece :: after → ∃ looked,
        peek (advance^[before.length] (Lexer.ofString text)) = (.ok piece.token, looked) ∧
        position looked = byteLength (written before ++ piece.blanks)) ∧
      ∃ looked, peek (advance^[pieces.length] (Lexer.ofString text)) = (.ok .eof, looked) ∧
        position looked = byteLength text.toList := by
  refine ⟨fun ts => ⟨exists_isTiling_of_lex, ?_⟩, fun pieces last h => ?_⟩
  · rintro ⟨pieces, last, h, rfl⟩
    exact lex_of_isTiling h
  · refine ⟨h.tiles.eq_append, ?_, fun _ _ h' => h.unique h', ?_,
      peek_iterate_ending_of_isTiling h⟩
    · intro piece hpiece
      obtain ⟨-, behind, hlexeme⟩ := h.tiles.exists_isLexeme piece hpiece
      obtain ⟨c, run, hcons, -⟩ := hlexeme.exists_cons
      refine ⟨hcons ▸ List.cons_ne_nil c run, fun heof => ?_⟩
      -- The end has no lexeme, so no piece stands for it.
      exact nomatch heof ▸ h.tiles.isEof_eq_false piece hpiece
    · rintro before piece after rfl
      exact peek_iterate_of_isTiling h

/-- An ideographic space takes three bytes, so the star behind it is shown at offset 4. -/
theorem lex_tiles_wide_blank :
    let text := "x\u3000*2"
    lex text = .ok [.identifier "x", .star, .number (.integer 2), .eof] ∧
      ∃ looked, peek (advance^[1] (Lexer.ofString text)) = (.ok .star, looked) ∧
        position looked = 4 := by
  intro text
  have hname : IsLexeme ['\u3000', '*', '2'] ['x'] (.identifier "x") :=
    .name rfl (List.all_eq_true.mp rfl) (stopsRun_cons rfl)
  have hstar : IsLexeme ['2'] ['*'] .star := .symbol rfl
  have hnumber : IsLexeme [] ['2'] (.number (.integer 2)) :=
    .number rfl (List.all_eq_true.mp rfl) (stopsRun_nil _) rfl
  have hblank : IsBlanks ['\u3000'] := List.all_eq_true.mp rfl
  have htext : text.toList = ['x', '\u3000', '*', '2'] := by decide
  have htiles : Tiles text.toList [⟨[], ['x'], .identifier "x"⟩, ⟨['\u3000'], ['*'], .star⟩,
      ⟨[], ['2'], .number (.integer 2)⟩] [] := by
    rw [htext]
    exact .cons isBlanks_nil hname (.cons hblank hstar (.cons isBlanks_nil hnumber (.nil [])))
  have htiling := IsTiling.mk htiles isBlanks_nil
  obtain ⟨-, -, -, hposition, -⟩ := (lex_tiles text).2 _ _ htiling
  exact ⟨((lex_tiles text).1 _).mpr ⟨_, _, htiling, rfl⟩,
    hposition [⟨[], ['x'], .identifier "x"⟩] ⟨['\u3000'], ['*'], .star⟩ _ rfl⟩

end Abacus
