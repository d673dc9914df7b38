import Abacus.Proofs.Expr.Rendering
import Abacus.Proofs.Token.Joining
import Abacus.Proofs.Token.Lexing

/-!
# Tokens written with blanks between them

Tokens that are written one behind the other, with any blanks between them, are read back as these
tokens.  Blanks are needed only between two words, which would be read as one; a symbol stands for
itself wherever it is.  What is written of a number or a name is therefore the lexeme of it, and the
lexemes with the blanks before them tile the text.

## Main definitions

* `Token.isWord` — numbers and names.
* `Token.IsWritable` — the tokens that have a lexeme of their own.
* `spacedText` — the text of tokens and blanks.

## Main results

* `Token.IsWritable.isLexeme` — the written form of a token is a lexeme of it.
* `tiles_spacedText` — these lexemes tile the text.
* `lex_spacedText` — **tokens written with blanks between them are read back.**
-/

namespace Abacus

variable {rest : List Char} {last : String} {token : Token} {spaced : List (String × Token)}

/-! ### The written forms of tokens -/

namespace Token

/-- A number or a name, which is written as a run of characters. -/
def isWord : Token → Bool
  | number _ => true
  | identifier _ => true
  | _ => false

/-- The token has a written form that is read as one token: it is no end, no number with a sign,
and no other text than a name. -/
def IsWritable : Token → Prop
  | eof => False
  | number value => value.IsFinite ∧ value.isNegative = false
  | identifier name => IsName name
  | _ => True

/-- All other tokens are written as a single character. -/
theorem IsWritable.exists_ofSymbol? (h : token.IsWritable) (hsymbol : token.isWord = false) :
    ∃ c, token.text.toList = [c] ∧ ofSymbol? c = some token := by
  cases token with
  | eof => exact h.elim
  | number value => exact nomatch hsymbol
  | identifier name => exact nomatch hsymbol
  | plus => exact ⟨'+', rfl, rfl⟩
  | minus => exact ⟨'-', rfl, rfl⟩
  | star => exact ⟨'*', rfl, rfl⟩
  | slash => exact ⟨'/', rfl, rfl⟩
  | openParen => exact ⟨'(', rfl, rfl⟩
  | closeParen => exact ⟨')', rfl, rfl⟩

theorem toList_text_number {value : Number} (h : value.IsFinite)
    (hpositive : value.isNegative = false) : (number value).text.toList = value.digits := by
  rw [text, Number.toList_text h, hpositive]
  rfl

/-- **The written form of a token is a lexeme of it**; that of a word must not go on behind it. -/
theorem IsWritable.isLexeme (h : token.IsWritable)
    (hrest : token.isWord = true → StopsRun isNumberPart rest) :
    IsLexeme rest token.text.toList token := by
  cases hword : token.isWord with
  | false =>
    obtain ⟨c, htext, hsymbol⟩ := h.exists_ofSymbol? hword
    rw [htext]
    exact .symbol hsymbol
  | true =>
    cases token with
    | number value =>
      obtain ⟨hfinite, hpositive⟩ := h
      have hne : value ≠ .least := by
        rintro rfl
        exact nomatch hpositive
      have hdigits := Number.isLexeme_digits hfinite hne (hrest rfl)
      -- A number that is written has no sign, so its text is its digits.
      rwa [Number.unsigned_of_not_isNegative hpositive, ← toList_text_number hfinite hpositive]
        at hdigits
    | identifier name => exact IsName.isLexeme h (hrest rfl)
    | _ => exact nomatch hword

end Token

theorem isNumberPart_of_ofSymbol? {c : Char} (h : Token.ofSymbol? c = some token) :
    isNumberPart c = false := by
  unfold Token.ofSymbol? at h
  split at h
  all_goals first | rfl | exact nomatch h

/-! ### Tokens and blanks -/

/-- The text of tokens with the given blanks before each of them, and others at the end. -/
def spacedText (last : String) : List (String × Token) → String
  | [] => last
  | (blanks, token) :: spaced => blanks ++ token.text ++ spacedText last spaced

theorem toList_spacedText_cons (blanks : String) (token : Token) :
    (spacedText last ((blanks, token) :: spaced)).toList
      = blanks.toList ++ (token.text.toList ++ (spacedText last spaced).toList) := by
  rw [spacedText, String.toList_append, String.toList_append, List.append_assoc]

/-- Blanks or a symbol stop a run. -/
theorem stopsRun_spacedText (hlast : IsBlanks last.toList)
    (hblanks : ∀ word ∈ spaced, IsBlanks word.1.toList)
    (htokens : ∀ word ∈ spaced, word.2.IsWritable)
    (hfirst : ∀ word ∈ spaced.head?, word.2.isWord = true → word.1 ≠ "") :
    StopsRun isNumberPart (spacedText last spaced).toList := by
  cases spaced with
  | nil =>
    rw [spacedText, ← List.append_nil last.toList]
    exact hlast.stopsRun_append fun _ => stopsRun_nil _
  | cons word spaced =>
    obtain ⟨blanks, token⟩ := word
    rw [toList_spacedText_cons]
    refine (hblanks _ List.mem_cons_self).stopsRun_append fun hnone => ?_
    -- Without blanks there is no word.
    have hsymbol : token.isWord = false := by
      rw [Bool.eq_false_iff]
      exact fun hword => hfirst _ rfl hword (String.toList_eq_nil_iff.mp hnone)
    obtain ⟨c, htext, hc⟩ := (htokens _ List.mem_cons_self).exists_ofSymbol? hsymbol
    rw [htext]
    exact stopsRun_cons (isNumberPart_of_ofSymbol? hc)

/-- The piece of a token, with the blanks before it. -/
def Piece.ofSpaced (word : String × Token) : Piece :=
  ⟨word.1.toList, word.2.text.toList, word.2⟩

/-- **The written forms of the tokens tile the text.** -/
theorem tiles_spacedText (hlast : IsBlanks last.toList)
    (hblanks : ∀ word ∈ spaced, IsBlanks word.1.toList)
    (htokens : ∀ word ∈ spaced, word.2.IsWritable)
    (hseparate : spaced.IsChain fun left right =>
      left.2.isWord = true → right.2.isWord = true → right.1 ≠ "") :
    Tiles (spacedText last spaced).toList (spaced.map Piece.ofSpaced) last.toList := by
  induction spaced with
  | nil => exact .nil _
  | cons word spaced ih =>
    obtain ⟨blanks, token⟩ := word
    obtain ⟨hblank, hblanks⟩ := List.forall_mem_cons.mp hblanks
    obtain ⟨htoken, htokens⟩ := List.forall_mem_cons.mp htokens
    obtain ⟨hnext, hseparate⟩ := List.isChain_cons.mp hseparate
    -- Two words are kept apart by blanks, and a symbol ends any word.
    have hlexeme := htoken.isLexeme fun hword =>
      stopsRun_spacedText hlast hblanks htokens fun next hmem => hnext next hmem hword
    rw [toList_spacedText_cons]
    exact .cons hblank hlexeme (ih hblanks htokens hseparate)

/-- **Tokens written with blanks between them are read back.**  Before each token and at the end
there may be blanks of any kind, and there have to be some between two words.  Any token but the end
may be written: numbers that are finite and have no minus sign, names, and symbols. -/
theorem lex_spacedText (spaced : List (String × Token)) (last : String)
    (hlast : IsBlanks last.toList) (hblanks : ∀ word ∈ spaced, IsBlanks word.1.toList)
    (htokens : ∀ word ∈ spaced, word.2.IsWritable)
    (hseparate : spaced.IsChain fun left right =>
      left.2.isWord = true → right.2.isWord = true → right.1 ≠ "") :
    lex (spacedText last spaced) = .ok (spaced.map Prod.snd ++ [.eof]) := by
  have htiles := tiles_spacedText hlast hblanks htokens hseparate
  rw [lex_of_isTiling ⟨htiles, hlast⟩, List.map_map]
  rfl

/-- A float is read as a float also if it is whole, and a name is read behind it although it begins
with a letter that an exponent may begin with. -/
theorem lex_spacedText_whole_float :
    let spaced : List (String × Token) :=
      [("", .minus), ("", .number (.float 2.0)), ("\u2003", .identifier "e5"), ("", .closeParen),
        ("\t ", .number (.integer 7))]
    lex (spacedText "\u3000" spaced)
      = .ok [.minus, .number (.float 2.0), .identifier "e5", .closeParen, .number (.integer 7),
          .eof] := by
  intro spaced
  have hlast : IsBlanks "\u3000".toList := List.all_eq_true.mp rfl
  have hblanks : ∀ word ∈ spaced, IsBlanks word.1.toList := by
    simp only [spaced, List.forall_mem_cons]
    exact ⟨isBlanks_nil, isBlanks_nil, List.all_eq_true.mp rfl, isBlanks_nil,
      List.all_eq_true.mp rfl, nofun⟩
  have hfloat : (2.0 : Float).isFinite = true ∧ (Number.float 2.0).isNegative = false := by
    decide +kernel
  have hname : IsName "e5" := ⟨'e', ['5'], rfl, rfl, List.all_eq_true.mp rfl⟩
  have htokens : ∀ word ∈ spaced, word.2.IsWritable := by
    simp only [spaced, List.forall_mem_cons]
    exact ⟨trivial, hfloat, hname, trivial, ⟨trivial, rfl⟩, nofun⟩
  exact lex_spacedText spaced "\u3000" hlast hblanks htokens (by decide)

end Abacus
