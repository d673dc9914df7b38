import Abacus.Proofs.Expr.Buffering
import Abacus.Proofs.Token.Joining

/-!
# How many blanks there are, and which

Where there are blanks in a text there may be any others as well.  What stands before them is
divided in the same way, since no run goes on through a blank; either it has a fault, and nothing
behind is of any concern, or what stands behind the blanks is divided as it was, only farther on or
back.  So the tokens are the same and so is what is read of them, with all positions moved alike.

## Main definitions

* `moved` — a position in a text when blanks in it are replaced by others.

## Main results

* `exists_inputAt_around` — what a text with blanks in it is divided into.
* `inputAt_moved`, `inputAt_around_within` — its positions, with other blanks and with these.
* `blanks_of_any_kind` — **other blanks change positions only.**
-/

namespace Abacus

variable {us vs ws ws' : List Char}

/-- Where a place of a text is found when `size` bytes from `start` on are replaced by `size'`. -/
def moved (start size size' place : Nat) : Nat :=
  if place < start then place else place - size + size'

theorem moved_of_lt {start size size' place : Nat} (h : place < start) :
    moved start size size' place = place :=
  if_pos h

theorem moved_add (start size size' place : Nat) :
    moved start size size' (place + (start + size)) = place + (start + size') := by
  rw [moved, if_neg (by omega)]
  omega

/-! ### Texts with blanks in them -/

/-- Tokens that stand before the characters do not stand behind them. -/
theorem Tiles.position_lt {cs rest : List Char} {pieces : List Piece} (h : Tiles cs pieces rest) :
    ∀ offset, ∀ next ∈ locate offset pieces,
      next.position < offset + byteLength (written pieces) := by
  induction h with
  | nil => intro offset next hnext; exact nomatch hnext
  | @cons blanks lexeme cs rest token pieces _ hlexeme _ ih =>
    obtain ⟨c, run, rfl, -⟩ := hlexeme.exists_cons
    have hpos : 0 < byteLength (c :: run) := byteLength_pos_of_ne_nil (List.cons_ne_nil c run)
    intro offset next hnext
    simp only [written_cons, byteLength_append]
    -- A token starts where its lexeme does, and no lexeme is empty.
    rcases List.mem_cons.mp hnext with rfl | hnext
    · dsimp only
      omega
    · have hlt : next.position < offset + byteLength blanks + byteLength (c :: run)
          + byteLength (written pieces) := ih _ next hnext
      omega

/-- **Between two texts blanks of any kind do the same.**  The first text may have a fault; if not,
its tokens come first and then those of the second text. -/
theorem exists_inputAt_around (us vs : List Char) :
    ∃ lts, (∀ next ∈ lts, next.position < byteLength us) ∧
      ((∀ ws, ws ≠ [] → IsBlanks ws → inputAt 0 (us ++ (ws ++ vs))
          = (inputAt (byteLength us + byteLength ws) vs).prepend lts) ∨
        ∃ error : LexError, error.position < byteLength us ∧
          ∀ ws, ws ≠ [] → IsBlanks ws → inputAt 0 (us ++ (ws ++ vs)) = ⟨lts, .fault error⟩) := by
  obtain ⟨pieces, blanks, rest, htiles, hblanks, hrest⟩ := exists_tiles us
  have hus : us = written pieces ++ (blanks ++ rest) := htiles.eq_append
  have hlength : byteLength us
      = byteLength (written pieces) + (byteLength blanks + byteLength rest) := by
    rw [hus, byteLength_append, byteLength_append]
  refine ⟨locate 0 pieces, fun next hnext => ?_, ?_⟩
  · have hlt := htiles.position_lt 0 next hnext
    omega
  -- No run of the first text goes on through the blanks.
  have hapart : ∀ {ws}, ws ≠ [] → IsBlanks ws → Apart us (ws ++ vs) := fun hne hws =>
    apart_of_stopsRun (hws.stopsRun_append fun hnil => absurd hnil hne)
  rcases hrest with rfl | ⟨fault, hfault⟩
  · refine .inl fun ws hne hws => ?_
    have hall : IsBlanks (blanks ++ ws) := List.forall_mem_append.mpr ⟨hblanks, hws⟩
    rw [byteLength_nil, Nat.add_zero] at hlength
    rw [(htiles.append (hapart hne hws)).inputAt_eq_prepend, List.append_nil, ← List.append_assoc,
      inputAt_blanks_append hall, byteLength_append, hlength, Nat.zero_add, Nat.add_assoc]
  · refine .inr ⟨fault (byteLength (written pieces) + byteLength blanks), ?_, fun ws hne hws => ?_⟩
    · obtain ⟨c, run, rfl, -⟩ := hfault.exists_cons
      have hpos : 0 < byteLength (c :: run) := byteLength_pos_of_ne_nil (List.cons_ne_nil c run)
      rw [hfault.position_eq]
      omega
    · have hbehind : Apart rest (ws ++ vs) := by
        have happart := hapart hne hws
        rw [hus, ← List.append_assoc] at happart
        exact happart.of_append
      refine (htiles.append (hapart hne hws)).inputAt_eq 0 ?_
      rw [List.append_assoc, inputAt_of_isFault _ hblanks (hfault.append hbehind), Nat.zero_add]

section Moved

variable (hne : ws ≠ []) (hws : IsBlanks ws)

include hne hws

/-- **With other blanks the tokens are the same, and their positions are moved.** -/
theorem inputAt_moved (hne' : ws' ≠ []) (hws' : IsBlanks ws') :
    inputAt 0 (us ++ (ws' ++ vs))
      = (inputAt 0 (us ++ (ws ++ vs))).mapPositions
          (moved (byteLength us) (byteLength ws) (byteLength ws')) := by
  obtain ⟨lts, hlts, hinput | ⟨error, herror, hinput⟩⟩ := exists_inputAt_around us vs
  · -- Blanks end a token, so what stands in front of them is read without them.
    have hfixed : lts.map
        (Located.mapPosition (moved (byteLength us) (byteLength ws) (byteLength ws'))) = lts := by
      refine (List.map_congr_left fun next hnext => ?_).trans (List.map_id lts)
      rw [Located.mapPosition, moved_of_lt (hlts next hnext)]
      rfl
    -- What stands behind is read from a place that is further on by a constant.
    have hbehind : inputAt (byteLength us + byteLength ws') vs
        = (inputAt (byteLength us + byteLength ws) vs).mapPositions
            (moved (byteLength us) (byteLength ws) (byteLength ws')) := by
      have hplaces : moved (byteLength us) (byteLength ws) (byteLength ws')
          ∘ (· + (byteLength us + byteLength ws)) = (· + (byteLength us + byteLength ws')) :=
        funext fun place => moved_add _ _ _ place
      rw [← Nat.zero_add (byteLength us + byteLength ws'), inputAt_add,
        ← Nat.zero_add (byteLength us + byteLength ws), inputAt_add, Input.mapPositions_comp,
        hplaces]
    rw [hinput ws' hne' hws', hinput ws hne hws, hbehind]
    simp only [Input.prepend, Input.mapPositions, List.map_append, hfixed]
  · -- The reading stops in front of the blanks and never sees them.
    have hwithin : (Input.mk lts (.fault error)).Within (· < byteLength us) := ⟨hlts, herror⟩
    rw [hinput ws' hne' hws', hinput ws hne hws]
    exact (Input.mapPositions_eq_self hwithin fun _ => moved_of_lt).symm

/-- Nothing stands among the blanks. -/
theorem inputAt_around_within : (inputAt 0 (us ++ (ws ++ vs))).Within
    fun p => p < byteLength us ∨ byteLength us + byteLength ws ≤ p := by
  obtain ⟨lts, hlts, hinput | ⟨error, herror, hinput⟩⟩ := exists_inputAt_around us vs
  · have hbehind := inputAt_within (byteLength us + byteLength ws) vs
    rw [hinput ws hne hws]
    refine ⟨List.forall_mem_append.mpr ⟨fun next hnext => .inl (hlts next hnext), ?_⟩,
      .inr hbehind.stop⟩
    exact fun next hnext => .inr (hbehind.tokens next hnext)
  · rw [hinput ws hne hws]
    exact ⟨fun next hnext => .inl (hlts next hnext), .inl herror⟩

end Moved

/-! ### What is read -/

theorem Input.toTokens_mapPositions (f : Nat → Nat) (input : Input) :
    (input.mapPositions f).toTokens = input.toTokens.mapError (LexError.mapPosition f) := by
  obtain ⟨tokens, stop⟩ := input
  cases stop with
  | ending position =>
    simp only [toTokens, mapPositions, Stop.mapPosition, List.map_map]
    rfl
  | fault error => rfl

theorem Input.position_of_toTokens_eq_error {P : Nat → Prop} {input : Input} {error : LexError}
    (h : input.Within P) (herror : input.toTokens = .error error) : P error.position := by
  obtain ⟨tokens, stop⟩ := input
  cases stop with
  | ending position => exact nomatch herror
  | fault fault =>
    obtain rfl : fault = error := Except.error.inj herror
    exact h.stop

theorem input_ofString_around (u w v : String) :
    TokenSource.input (Lexer.ofString (u ++ w ++ v))
      = inputAt 0 (u.toList ++ (w.toList ++ v.toList)) := by
  have htext : (u ++ w ++ v).toList = u.toList ++ (w.toList ++ v.toList) := by
    rw [String.toList_append, String.toList_append, List.append_assoc]
  rw [← htext]
  rfl

/-- **Other blanks change positions only.**  If blanks in a text are replaced by others, its tokens
are the same, or its fault; and the same is read of it, or it has the same error.  An error before
the blanks stays where it is.  Any other one stands where the blanks end or farther behind, and is
as much farther on or back as the blanks take more or fewer bytes. -/
theorem blanks_of_any_kind (u v w w' : String) (hw : w ≠ "") (hblank : IsBlanks w.toList)
    (hw' : w' ≠ "") (hblank' : IsBlanks w'.toList) :
    let start := byteLength u.toList
    let size := byteLength w.toList
    let f := moved start size (byteLength w'.toList)
    lex (u ++ w' ++ v) = (lex (u ++ w ++ v)).mapError (LexError.mapPosition f) ∧
    (Parser.ofText (u ++ w' ++ v)).parse.1
      = (Parser.ofText (u ++ w ++ v)).parse.1.mapError (Error.mapPosition f) ∧
    (∀ error, lex (u ++ w ++ v) = .error error →
      error.position < start ∨ start + size ≤ error.position) ∧
    ∀ error, (Parser.ofText (u ++ w ++ v)).parse.1 = .error error →
      ∃ p, error.position? = some p ∧ (p < start ∨ start + size ≤ p) := by
  intro start size f
  have hne : w.toList ≠ [] := fun hnil => hw (String.toList_eq_nil_iff.mp hnil)
  have hne' : w'.toList ≠ [] := fun hnil => hw' (String.toList_eq_nil_iff.mp hnil)
  have hmoved : TokenSource.input (Lexer.ofString (u ++ w' ++ v))
      = (TokenSource.input (Lexer.ofString (u ++ w ++ v))).mapPositions f := by
    rw [input_ofString_around, input_ofString_around]
    exact inputAt_moved hne hblank hne' hblank'
  have hwithin : (TokenSource.input (Lexer.ofString (u ++ w ++ v))).Within
      fun p => p < start ∨ start + size ≤ p := by
    rw [input_ofString_around]
    exact inputAt_around_within hne hblank
  refine ⟨?_, ?_, fun error herror => ?_, fun error herror => ?_⟩
  · rw [lex_eq_toTokens, lex_eq_toTokens, hmoved, Input.toTokens_mapPositions]
  · have hsame := Descent.parse_eq_mapError hmoved
    rwa [← Descent.parse_eq] at hsame
  · rw [lex_eq_toTokens] at herror
    exact Input.position_of_toTokens_eq_error hwithin herror
  · exact Descent.exists_position_of_parse_eq_error hwithin herror

/-- With a wide space and a tab for a space the accented letter stands three bytes farther on; but
the operand that is missing before the blanks is missing where it was. -/
theorem blanks_of_any_kind_wide_for_narrow :
    lex "x +\u3000\té" = .error (.unexpectedInput 'é' 7) ∧
    (Parser.ofText "x )\u3000\té").parse.1 = .error (.parse (.trailingTokens .closeParen 2)) := by
  have hspace : IsBlanks " ".toList := List.all_eq_true.mp rfl
  have hwide : IsBlanks "\u3000\t".toList := List.all_eq_true.mp rfl
  have hstray : lex ("x +" ++ " " ++ "é") = .error (.unexpectedInput 'é' 4) := by
    with_unfolding_all rfl
  have htrailing : (Parser.ofText ("x )" ++ " " ++ "é")).parse.1
      = .error (.parse (.trailingTokens .closeParen 2)) := by
    with_unfolding_all rfl
  obtain ⟨hlex, -⟩ := blanks_of_any_kind "x +" "é" " " "\u3000\t" (by decide) hspace (by decide)
    hwide
  obtain ⟨-, hparse, -⟩ := blanks_of_any_kind "x )" "é" " " "\u3000\t" (by decide) hspace
    (by decide) hwide
  rw [hstray] at hlex
  rw [htrailing] at hparse
  exact ⟨hlex, hparse⟩

end Abacus
