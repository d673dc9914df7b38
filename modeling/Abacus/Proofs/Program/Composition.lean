import Abacus.Program
import Abacus.Proofs.Expr.Rendering
import Abacus.Proofs.Grammar.Acceptance
import Abacus.Proofs.Token.Joining
import Abacus.Proofs.Token.Lexing

/-!
# Texts put into larger ones

In parentheses a text is read as it is read alone, whatever stands around them: no run of characters
goes on through a parenthesis, and no chain of operands does.  So two texts in parentheses with an
operator between them are read as the operation on their trees, and evaluated as the operator on
their values.  Only the limits are nearer, since what is put into a larger text lies one level
deeper.

## Main definitions

* `groupText`, `operationText` — a text in parentheses, and two of them with an operator between.
* `TextDerives` — the tree that a text derives, and its nesting.

## Main results

* `IsTiling.group` — what tiles a text tiles it in parentheses, with anything behind them.
* `TextDerives.group`, `TextDerives.operation` — what the larger text derives.
* `calculate_operationText` — **the value of a larger text is that of its parts.**
-/

namespace Abacus

/-- A text in parentheses. -/
def groupText (text : String) : String := "(" ++ text ++ ")"

/-- Two texts in parentheses with an operator between them. -/
def operationText (operator : Operator) (left right : String) : String :=
  groupText left ++ " " ++ operator.symbol ++ " " ++ groupText right

theorem toList_groupText (text : String) :
    (groupText text).toList = '(' :: (text.toList ++ [')']) := by
  simp [groupText]

theorem toList_operationText (operator : Operator) (left right : String) :
    (operationText operator left right).toList
      = '(' :: (left.toList ++ ')' :: (' ' :: (operator.symbol.toList ++
          ' ' :: ('(' :: (right.toList ++ [')']))))) := by
  simp [operationText, toList_groupText]

/-! ### Tilings -/

section Tilings

variable {cs rest last last' blanks : List Char} {pieces pieces' : List Piece}

/-- The pieces of a group, with the blanks before it. -/
def groupPieces (blanks : List Char) (pieces : List Piece) (last : List Char) : List Piece :=
  ⟨blanks, ['('], .openParen⟩ :: (pieces ++ [⟨last, [')'], .closeParen⟩])

theorem map_token_groupPieces (blanks : List Char) (pieces : List Piece) (last : List Char) :
    (groupPieces blanks pieces last).map Piece.token
      = .openParen :: (pieces.map Piece.token ++ [.closeParen]) := by
  simp [groupPieces]

/-- **What tiles a text tiles it in parentheses.**  The blanks at its end are those before the
closing one, and anything may stand behind it. -/
theorem IsTiling.group (h : IsTiling cs pieces last) (hblanks : IsBlanks blanks)
    (rest : List Char) :
    Tiles (blanks ++ '(' :: (cs ++ ')' :: rest)) (groupPieces blanks pieces last) rest := by
  have happart : Apart cs (')' :: rest) := apart_of_stopsRun (stopsRun_cons rfl)
  have hclose : Tiles (last ++ ')' :: rest) [⟨last, [')'], .closeParen⟩] rest :=
    .cons h.blanks (.symbol rfl) (.nil rest)
  exact .cons hblanks (.symbol rfl) ((h.tiles.append happart).trans hclose)

theorem isTiling_groupText {text : String} (h : IsTiling text.toList pieces last) :
    IsTiling (groupText text).toList (groupPieces [] pieces last) [] := by
  rw [toList_groupText]
  exact ⟨h.group isBlanks_nil [], isBlanks_nil⟩

theorem isTiling_operationText {left right : String} (operator : Operator)
    (h : IsTiling left.toList pieces last) (h' : IsTiling right.toList pieces' last') :
    IsTiling (operationText operator left right).toList
      (groupPieces [] pieces last ++ ⟨[' '], operator.symbol.toList, operator.token⟩
        :: groupPieces [' '] pieces' last') [] := by
  have hblank : IsBlanks [' '] := List.all_eq_true.mp rfl
  have hbehind := Tiles.cons hblank (operator.isLexeme_symbol _) (h'.group hblank [])
  rw [toList_operationText]
  exact ⟨(h.group isBlanks_nil _).trans hbehind, isBlanks_nil⟩

end Tilings

/-! ### Derivations -/

/-- The tokens of the text derive the tree `e` with the nesting `n`. -/
def TextDerives (text : String) (e : Expr) (n : Nat) : Prop :=
  ∃ ts, lex text = .ok (ts ++ [.eof]) ∧ Derives .expression ts e n

section Derivations

variable {text left right : String} {e e' l r : Expr} {m n n' : Nat}

theorem TextDerives.exists_isTiling (h : TextDerives text e n) :
    ∃ pieces last, IsTiling text.toList pieces last ∧
      Derives .expression (pieces.map Piece.token) e n := by
  obtain ⟨ts, hlex, hderives⟩ := h
  obtain ⟨pieces, last, htiling, htokens⟩ := exists_isTiling_of_lex hlex
  obtain rfl := List.append_cancel_right htokens
  exact ⟨pieces, last, htiling, hderives⟩

theorem textDerives_of_isTiling {pieces : List Piece} {last : List Char}
    (h : IsTiling text.toList pieces last)
    (hderives : Derives .expression (pieces.map Piece.token) e n) : TextDerives text e n :=
  ⟨pieces.map Piece.token, lex_of_isTiling h, hderives⟩

/-- A text derives one tree at most, and with one nesting. -/
theorem TextDerives.unique (h : TextDerives text e n) (h' : TextDerives text e' n') :
    e = e' ∧ n = n' := by
  obtain ⟨ts, hlex, hderives⟩ := h
  obtain ⟨ts', hlex', hderives'⟩ := h'
  obtain rfl := List.append_cancel_right (Except.ok.inj (hlex.symm.trans hlex'))
  exact ⟨eq_of_derives hderives hderives', nesting_eq_of_derives hderives hderives'⟩

/-- A text in parentheses derives the same tree. -/
theorem TextDerives.group (h : TextDerives text e n) : TextDerives (groupText text) e (n + 1) := by
  obtain ⟨pieces, last, htiling, hderives⟩ := h.exists_isTiling
  refine textDerives_of_isTiling (isTiling_groupText htiling) ?_
  rw [map_token_groupPieces]
  exact .ofTerm (.ofFactor (.group hderives))

/-- **Two texts in parentheses derive the operation on their trees.** -/
theorem TextDerives.operation (hl : TextDerives left l m) (hr : TextDerives right r n)
    (operator : Operator) :
    TextDerives (operationText operator left right) (.operation l operator r)
      (max (m + 1) (n + 1)) := by
  obtain ⟨pieces, last, htiling, hderives⟩ := hl.exists_isTiling
  obtain ⟨pieces', last', htiling', hderives'⟩ := hr.exists_isTiling
  refine textDerives_of_isTiling (isTiling_operationText operator htiling htiling') ?_
  rw [List.map_append, List.map_cons, map_token_groupPieces, map_token_groupPieces]
  exact .operation (.group hderives) (.group hderives')

/-! ### What is read -/

/-- What is to come of such a text are the tokens that derive the tree, and then the end. -/
theorem TextDerives.input_ofString (h : TextDerives text e n) :
    (∃ position, (Cursor.ofString text).input.stop = .ending position) ∧
      Derives .expression ((Cursor.ofString text).input.tokens.map Located.token) e n := by
  obtain ⟨pieces, last, htiling, hderives⟩ := h.exists_isTiling
  have hinput : (Cursor.ofString text).input = _ := input_ofString_of_isTiling htiling
  rw [hinput, map_token_locate]
  exact ⟨⟨_, rfl⟩, hderives⟩

/-- A text that derives a tree within the limits is read as this tree. -/
theorem TextDerives.parse_eq_ok (h : TextDerives text e n) (hn : n ≤ maxDepth)
    (he : e.depth ≤ maxDepth) : Expr.parse text = .ok e := by
  obtain ⟨⟨position, hstop⟩, hderives⟩ := h.input_ofString
  exact Input.parseWithin_of_derives hstop hderives hn he

/-- Past a limit it is too deep. -/
theorem TextDerives.parse_tooDeep (h : TextDerives text e n)
    (hpast : maxDepth < n ∨ maxDepth < e.depth) :
    ∃ position, Expr.parse text = .error (.parse (.nestingTooDeep maxDepth position)) := by
  obtain ⟨⟨position, hstop⟩, hderives⟩ := h.input_ofString
  exact Input.parseWithin_tooDeep (by decide) hstop hderives hpast

/-- Only what derives a tree within the limits is read as this tree. -/
theorem exists_textDerives_of_parse (h : Expr.parse text = .ok e) :
    ∃ n, TextDerives text e n ∧ n ≤ maxDepth ∧ e.depth ≤ maxDepth := by
  have hinput : TokenSource.input (Lexer.ofString text) = (Cursor.ofString text).input := rfl
  obtain ⟨n, hderives, hn, he⟩ := Input.derives_of_parseWithin (by decide) h
  obtain ⟨position, hstop⟩ := Input.exists_ending_of_parseWithin h
  refine ⟨n, ⟨_, ?_, hderives⟩, hn, he⟩
  rw [lex_eq_toTokens, hinput, Input.toTokens, hstop]

end Derivations

/-! ### Values -/

section Values

variable {text left right : String} {e l r : Expr} {operator : Operator}

theorem calculate_of_parse (h : Expr.parse text = .ok e) (bindings : Bindings) :
    calculate text bindings = (e.evaluate bindings).mapError Error.eval := by
  rw [calculate, h]
  rfl

/-- A text that is read as the operation on the trees of two others has the value of the operator on
their values, or the error of the first of them that has one. -/
theorem calculate_of_parse_operation (h : Expr.parse text = .ok (.operation l operator r))
    (hleft : Expr.parse left = .ok l) (hright : Expr.parse right = .ok r) (bindings : Bindings) :
    calculate text bindings
      = (calculate left bindings).bind fun a => (calculate right bindings).bind fun b =>
          (Number.apply operator a b).mapError Error.eval := by
  rw [calculate_of_parse h, calculate_of_parse hleft, calculate_of_parse hright,
    Expr.evaluate_operation]
  cases l.evaluate bindings with
  | error error => rfl
  | ok a =>
    cases r.evaluate bindings with
    | error error => rfl
    | ok b => rfl

end Values

/-- **The value of a larger text is that of its parts.**  Texts that are read have one nesting each.
If none of them is at the limit, and neither of their trees is, then the operation on them is read
as the operation on the trees; its value is that of the operator on the values of the texts, unless
the first or else the second of these has an error, which is then the error of the larger text.
At a limit the larger text is too deep.  A single text in parentheses is read as the text itself,
unless its nesting is at the limit. -/
theorem calculate_operationText {left right : String} {l r : Expr}
    (hleft : Expr.parse left = .ok l) (hright : Expr.parse right = .ok r) (operator : Operator) :
    ∃ m n, (∀ k, (∃ e, TextDerives left e k) ↔ k = m) ∧
      (∀ k, (∃ e, TextDerives right e k) ↔ k = n) ∧
      m ≤ maxDepth ∧ n ≤ maxDepth ∧ max l.depth r.depth ≤ maxDepth ∧
      (max m n < maxDepth → max l.depth r.depth < maxDepth →
        Expr.parse (operationText operator left right) = .ok (.operation l operator r) ∧
        ∀ bindings, calculate (operationText operator left right) bindings
          = (calculate left bindings).bind fun a => (calculate right bindings).bind fun b =>
              (Number.apply operator a b).mapError Error.eval) ∧
      (max m n = maxDepth ∨ max l.depth r.depth = maxDepth →
        ∃ position, Expr.parse (operationText operator left right)
          = .error (.parse (.nestingTooDeep maxDepth position))) ∧
      (m < maxDepth → Expr.parse (groupText left) = .ok l) ∧
      (m = maxDepth → ∃ position, Expr.parse (groupText left)
        = .error (.parse (.nestingTooDeep maxDepth position))) := by
  obtain ⟨m, hl, hm, hldepth⟩ := exists_textDerives_of_parse hleft
  obtain ⟨n, hr, hn, hrdepth⟩ := exists_textDerives_of_parse hright
  -- Both parts stand in groups, so the whole nests one level deeper than the deeper part.
  have hwhole := hl.operation hr operator
  have hdepth : (Expr.operation l operator r).depth = max l.depth r.depth + 1 :=
    Expr.depth_operation l operator r
  refine ⟨m, n, fun k => ⟨fun ⟨_, h⟩ => (h.unique hl).2, ?_⟩,
    fun k => ⟨fun ⟨_, h⟩ => (h.unique hr).2, ?_⟩, hm, hn, Nat.max_le.mpr ⟨hldepth, hrdepth⟩,
    fun hnesting hdepths => ?_, fun hpast => ?_, fun hnesting => ?_, fun hpast => ?_⟩
  · rintro rfl
    exact ⟨l, hl⟩
  · rintro rfl
    exact ⟨r, hr⟩
  · have hparse := hwhole.parse_eq_ok (by omega) (by omega)
    exact ⟨hparse, calculate_of_parse_operation hparse hleft hright⟩
  · exact hwhole.parse_tooDeep (by omega)
  · exact hl.group.parse_eq_ok hnesting hldepth
  · exact hl.group.parse_tooDeep (.inl (by omega))

/-- The sum in front stays together, although the product is stronger; and it is the name in it that
is found to have no value, since it is evaluated before the other one. -/
theorem calculate_operationText_product :
    Expr.parse "(1 - x) * (-y)" = .ok (.operation
      (.operation (.constant (.integer 1)) .subtract (.reference "x")) .multiply
      (.operation (.constant (.integer (-1))) .multiply (.reference "y"))) ∧
    calculate "(1 - x) * (-y)" {} = .error (.eval (.unbound "x")) := by
  have hleft : Expr.parse "1 - x"
      = .ok (.operation (.constant (.integer 1)) .subtract (.reference "x")) := by
    with_unfolding_all rfl
  have hright : Expr.parse "-y"
      = .ok (.operation (.constant (.integer (-1))) .multiply (.reference "y")) := by
    with_unfolding_all rfl
  have hsum : TextDerives "1 - x"
      (.operation (.constant (.integer 1)) .subtract (.reference "x")) 0 :=
    ⟨[.number (.integer 1), .minus, .identifier "x"], by with_unfolding_all rfl,
      .sum (.inr rfl) (.ofTerm (.ofFactor (.number _))) (.ofFactor (.name "x"))⟩
  have hminus : TextDerives "-y"
      (.operation (.constant (.integer (-1))) .multiply (.reference "y")) 1 :=
    ⟨[.minus, .identifier "y"], by with_unfolding_all rfl,
      .ofTerm (.ofFactor (.minus (.name "y")))⟩
  -- The nesting of a text is unique, so that of both parts can be read off a derivation.
  obtain ⟨m, n, hm, hn, -, -, -, hread, -⟩ := calculate_operationText hleft hright .multiply
  obtain rfl : 0 = m := (hm 0).mp ⟨_, hsum⟩
  obtain rfl : 1 = n := (hn 1).mp ⟨_, hminus⟩
  obtain ⟨hparse, hcalculate⟩ := hread (by decide) (by decide)
  have hvalue := hcalculate {}
  have herror : calculate "1 - x" {} = .error (.eval (.unbound "x")) := by
    rw [calculate_of_parse hleft]
    with_unfolding_all rfl
  rw [herror] at hvalue
  exact ⟨hparse, hvalue⟩

end Abacus
