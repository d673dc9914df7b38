import Abacus.Proofs.Expr.Buffering
import Abacus.Proofs.Expr.Rendering
import Abacus.Proofs.Number.Opposites

/-!
# Bounds of what is read

The tree of a text has a depth within the limit, its names are names, and its constants are integers
that have an opposite or finite floats.  While it is read its depth is kept beside it, and this is
always its true depth, also where a minus sign disappears in a constant.

## Main definitions

* `Expr.HasLeaves` — the constants and the names of a tree are of given kinds.
* `Taken.IsExact`, `Descent.KeepsDepth` — the depth beside the tree is that of the tree.

## Main results

* `hasLeaves_of_derives` — the leaves of a tree come from its tokens.
* `exists_isLexeme_of_mem_input`, `IsLexeme.gives` — the tokens of a text are its lexemes.
* `Descent.keepsDepth_factor`, `Descent.KeepsDepth.groupOver` — **the depth is kept**.
* `parse_bounded` — **the bounds of what is read of a text**.
-/

namespace Abacus

/-! ### The leaves of a tree -/

section Leaves

/-- The token is none that gives a leaf, or the leaf is of the given kind. -/
def Token.Gives (P : Number → Prop) (Q : String → Prop) : Token → Prop
  | number value => P value
  | identifier name => Q name
  | _ => True

/-- The leaves of a tree are of the given kinds. -/
structure Expr.HasLeaves (P : Number → Prop) (Q : String → Prop) (e : Expr) : Prop where
  constants : ∀ value ∈ e.constants, P value
  names : ∀ name ∈ e.names, Q name

variable {P : Number → Prop} {Q : String → Prop} {level : Level} {ts : List Token} {e l r : Expr}
  {op : Operator} {n : Nat}

theorem Expr.HasLeaves.operation (hl : l.HasLeaves P Q) (hr : r.HasLeaves P Q) :
    (Expr.operation l op r).HasLeaves P Q where
  constants := List.forall_mem_append.mpr ⟨hl.constants, hr.constants⟩
  names := List.forall_mem_append.mpr ⟨hl.names, hr.names⟩

theorem Expr.hasLeaves_constant {value : Number} (h : P value) :
    (Expr.constant value).HasLeaves P Q where
  constants := List.forall_mem_singleton.mpr h
  names := nofun

theorem Expr.hasLeaves_reference {name : String} (h : Q name) :
    (Expr.reference name).HasLeaves P Q where
  constants := nofun
  names := List.forall_mem_singleton.mpr h

/-- **The leaves of a tree come from its tokens**: they are of a kind that the tokens give, if this
kind is kept as signs are turned. -/
theorem hasLeaves_of_derives (hone : P (.integer (-1))) (hneg : ∀ {v : Number}, P v → P (-v))
    (h : Derives level ts e n) : (∀ token ∈ ts, token.Gives P Q) → e.HasLeaves P Q := by
  induction h with
  | ofTerm _ ih => exact ih
  | ofFactor _ ih => exact ih
  | sum _ _ _ ihl ihr =>
    intro hts
    obtain ⟨hls, hrs⟩ := List.forall_mem_append.mp hts
    exact (ihl hls).operation (ihr (List.forall_mem_cons.mp hrs).2)
  | product _ _ _ ihl ihr =>
    intro hts
    obtain ⟨hls, hrs⟩ := List.forall_mem_append.mp hts
    exact (ihl hls).operation (ihr (List.forall_mem_cons.mp hrs).2)
  | number value =>
    intro hts
    exact Expr.hasLeaves_constant (hts (.number value) (List.mem_singleton_self _))
  | name name =>
    intro hts
    exact Expr.hasLeaves_reference (hts (.identifier name) (List.mem_singleton_self _))
  | @minus ts e n _ ih =>
    intro hts
    have hinner := ih (List.forall_mem_cons.mp hts).2
    -- A minus turns the sign of a constant and multiplies anything else by minus one: these two are
    -- the only leaves that no token gives.
    cases e with
    | constant value =>
      exact Expr.hasLeaves_constant (hneg (hinner.constants value (List.mem_singleton_self _)))
    | reference name => exact (Expr.hasLeaves_constant hone).operation hinner
    | operation l op r => exact (Expr.hasLeaves_constant hone).operation hinner
  | group _ ih =>
    intro hts
    have hinner := (List.forall_mem_cons.mp hts).2
    exact ih (List.forall_mem_append.mp hinner).1

end Leaves

/-! ### The tokens of a text -/

/-- The tokens of a text up to a fault are its lexemes. -/
theorem exists_isLexeme_of_mem_input (text : String) :
    ∀ next ∈ (Cursor.ofString text).input.tokens,
      ∃ behind lexeme, IsLexeme behind lexeme next.token := by
  obtain ⟨pieces, blanks, rest, htiles, hblanks, hrest⟩ := exists_tiles text.toList
  have hlocated : (Cursor.ofString text).input.tokens = locate 0 pieces := by
    show (TokenSource.input (Lexer.ofString text)).tokens = _
    -- The tokens in front of a fault are lexemes, too, so the text need not be readable.
    rcases hrest with rfl | ⟨fault, hfault⟩
    · rw [List.append_nil] at htiles
      rw [input_ofString_of_isTiling ⟨htiles, hblanks⟩]
    · rw [input_ofString_of_isFault htiles hblanks hfault]
  intro next hnext
  have hmem : next.token ∈ pieces.map Piece.token := by
    rw [← map_token_locate pieces 0, ← hlocated]
    exact List.mem_map_of_mem hnext
  obtain ⟨piece, hpiece, htoken⟩ := List.mem_map.mp hmem
  obtain ⟨-, behind, hlexeme⟩ := htiles.exists_isLexeme piece hpiece
  exact ⟨behind, piece.lexeme, htoken ▸ hlexeme⟩

theorem Token.gives_of_ofSymbol? {P : Number → Prop} {Q : String → Prop} {c : Char} {token : Token}
    (h : ofSymbol? c = some token) : token.Gives P Q := by
  unfold ofSymbol? at h
  split at h <;> cases h <;> trivial

/-- Lexemes are names and numbers within the bounds. -/
theorem IsLexeme.gives {behind lexeme : List Char} {token : Token}
    (h : IsLexeme behind lexeme token) : token.Gives Number.IsBounded IsName := by
  cases h with
  | number _ _ _ hvalue => exact Number.isBounded_of_ofLiteralChars? hvalue
  | @name c run hc hrun =>
    exact ⟨c, run, String.toList_ofList, hc, fun d hd => hrun d (List.mem_cons_of_mem _ hd)⟩
  | symbol h => exact Token.gives_of_ofSymbol? h

/-! ### The depth that is kept -/

section Depth

variable {σ : Type} {limit room position : Nat} {op : Operator} {taken taken' left right : Taken σ}

/-- The depth beside the tree is that of the tree. -/
def Taken.IsExact (taken : Taken σ) : Prop := taken.depth = taken.expr.depth

theorem Taken.IsExact.join (hl : left.IsExact) (hr : right.IsExact)
    (h : left.join limit op position right = .ok taken) : taken.IsExact := by
  unfold Taken.join at h
  dsimp only at h
  split at h
  · cases h
  · obtain rfl := Except.ok.inj h
    show max left.depth right.depth + 1 = max left.expr.depth right.expr.depth + 1
    rw [hl, hr]

/-- A minus sign adds a level, unless it disappears in a constant. -/
theorem Taken.IsExact.negate (htaken : taken.IsExact)
    (h : Descent.negate limit position taken = .ok taken') : taken'.IsExact := by
  unfold Descent.negate at h
  split at h
  · next value hvalue =>
    obtain rfl := Except.ok.inj h
    rw [IsExact, hvalue] at htaken
    exact htaken
  · split at h
    · cases h
    · obtain rfl := Except.ok.inj h
      -- What is built is a product of a constant and the factor, and a factor has depth at least
      -- one.
      show taken.depth + 1 = max 1 taken.expr.depth + 1
      have hpos := taken.expr.depth_pos
      rw [htaken]
      omega

namespace Descent

/-- Whatever is read of a source, the depth beside the tree is that of the tree. -/
def KeepsDepth (operand : Descent σ) : Prop :=
  ∀ source taken, operand source = .ok taken → taken.IsExact

variable [TokenSource σ] {level : Operator → Bool} {operand factor : Descent σ}

/-- A chain keeps the depth as it goes on. -/
theorem isExact_extend (hoperand : operand.KeepsDepth)
    (h : extend limit level operand left = .ok taken) (hleft : left.IsExact) : taken.IsExact := by
  -- every operator brings the depth nearer to the limit
  generalize hk : limit - left.depth = k
  induction k using Nat.strongRecOn generalizing left with
  | ind k ih =>
    rw [extend_eq_look_bind] at h
    obtain ⟨⟨token, position, source⟩, -, h⟩ := Except.bind_eq_ok_iff.mp h
    dsimp only at h
    split at h
    · obtain rfl := Except.ok.inj h
      exact hleft
    · next op _ =>
      obtain ⟨right, hright, h⟩ := Except.bind_eq_ok_iff.mp h
      obtain ⟨joined, hjoin, h⟩ := Except.bind_eq_ok_iff.mp h
      have hlt := Taken.limit_sub_depth_join_lt hjoin
      have hjoined := hleft.join (hoperand _ right hright) hjoin
      exact ih _ (hk ▸ hlt) h hjoined rfl

theorem KeepsDepth.chain (hoperand : operand.KeepsDepth) :
    (Descent.chain limit level operand).KeepsDepth := by
  intro source taken h
  obtain ⟨left, hleft, h⟩ := Except.bind_eq_ok_iff.mp h
  exact isExact_extend hoperand h (hoperand source left hleft)

theorem KeepsDepth.termOver (hfactor : factor.KeepsDepth) :
    (Descent.termOver limit factor).KeepsDepth :=
  hfactor.chain

theorem KeepsDepth.expressionOver (hfactor : factor.KeepsDepth) :
    (Descent.expressionOver limit factor).KeepsDepth :=
  hfactor.termOver.chain

/-- The parentheses of a group add no level. -/
theorem KeepsDepth.groupOver (hfactor : factor.KeepsDepth) :
    (Descent.groupOver limit factor).KeepsDepth := by
  intro source taken h
  obtain ⟨inner, hinner, h⟩ := Except.bind_eq_ok_iff.mp h
  obtain ⟨⟨token, position, source'⟩, -, h⟩ := Except.bind_eq_ok_iff.mp h
  dsimp only at h
  split at h
  · obtain rfl := Except.ok.inj h
    exact hfactor.expressionOver source inner hinner
  · cases h

theorem keepsDepth_factorOver {inner : Option (Descent σ)}
    (hinner : ∀ factor ∈ inner, factor.KeepsDepth) : (factorOver limit inner).KeepsDepth := by
  intro source taken hread
  obtain ⟨⟨token, position, source'⟩, -, h⟩ := Except.bind_eq_ok_iff.mp hread
  dsimp only at h
  -- The cases of the rule: a number, a name, a minus, a group, and three refusals.
  split at h
  · obtain rfl := Except.ok.inj h
    rfl
  · obtain rfl := Except.ok.inj h
    rfl
  · next factor _ =>
    obtain ⟨parsed, hparsed, h⟩ := Except.bind_eq_ok_iff.mp h
    exact (hinner factor rfl _ parsed hparsed).negate h
  · next factor _ => exact (hinner factor rfl).groupOver _ taken h
  · cases h
  · cases h
  · cases h

/-- **The depth beside a factor is that of its tree.** -/
theorem keepsDepth_factor : ∀ room, (@Descent.factor σ _ limit room).KeepsDepth := by
  intro room
  induction room with
  | zero => exact keepsDepth_factorOver nofun
  | succ room ih => exact keepsDepth_factorOver fun factor hfactor => Option.some.inj hfactor ▸ ih

end Descent

end Depth

/-! ### What is read of a text -/

/-- **The bounds of what is read.**  The tree of a text is no deeper than the limit, the names in it
are names, and the constants are integers that have an opposite or finite floats; and every rule
keeps the true depth beside the tree, whatever the source and the limits. -/
theorem parse_bounded :
    (∀ (text : String) (e : Expr), (Parser.ofText text).parse.1 = .ok e →
      e.depth ≤ maxDepth ∧ (∀ name ∈ e.names, IsName name) ∧
        ∀ value ∈ e.constants, value.IsBounded) ∧
    ∀ (σ : Type) [TokenSource σ] (limit room : Nat),
      let factor : Descent σ := Descent.factor limit room
      factor.KeepsDepth ∧ (Descent.termOver limit factor).KeepsDepth ∧
        (Descent.expressionOver limit factor).KeepsDepth ∧
        (Descent.groupOver limit factor).KeepsDepth := by
  constructor
  · intro text e h
    have hparse : (Cursor.ofString text).input.parseWithin maxDepth = .ok e :=
      (Parser.outcome_ofText text).symm.trans h
    obtain ⟨n, hderives, -, hdepth⟩ := Input.derives_of_parseWithin (by decide) hparse
    -- Every token is a lexeme of the text: a number is in range and a name is a name.
    have hgives : ∀ token ∈ (Cursor.ofString text).input.tokens.map Located.token,
        token.Gives Number.IsBounded IsName := by
      intro token htoken
      obtain ⟨next, hnext, rfl⟩ := List.mem_map.mp htoken
      obtain ⟨behind, lexeme, hlexeme⟩ := exists_isLexeme_of_mem_input text next hnext
      exact hlexeme.gives
    have hone : (Number.integer (-1)).IsBounded := ⟨by decide, by decide⟩
    have hleaves := hasLeaves_of_derives hone Number.IsBounded.neg hderives hgives
    exact ⟨hdepth, hleaves.names, hleaves.constants⟩
  · intro σ _ limit room factor
    have hfactor : factor.KeepsDepth := Descent.keepsDepth_factor room
    exact ⟨hfactor, hfactor.termOver, hfactor.expressionOver, hfactor.groupOver⟩

/-- Signs that disappear in a constant leave one level, in the tree and beside it. -/
theorem parse_bounded_turned_twice :
    let e : Expr := .operation (.constant (.integer 2)) .add (.reference "x")
    ((Parser.ofText "--2+x").parse.1 = .ok e ∧ e.depth ≤ maxDepth ∧
      (∀ name ∈ e.names, IsName name) ∧ ∀ value ∈ e.constants, value.IsBounded) ∧
    ∃ taken : Taken Lexer, Descent.factor maxDepth 2 (Lexer.ofString "--2+x") = .ok taken ∧
      taken.expr = .constant (.integer 2) ∧ taken.depth = taken.expr.depth := by
  intro e
  have hparse : (Parser.ofText "--2+x").parse.1 = .ok e := by with_unfolding_all rfl
  have hfactor : Descent.factor maxDepth 2 (Lexer.ofString "--2+x")
      = .ok ⟨.constant (.integer 2), 1, ⟨⟨['2', '-', '-'], ['+', 'x'], 3⟩, none⟩⟩ := by
    with_unfolding_all rfl
  obtain ⟨hkeeps, -⟩ := parse_bounded.2 Lexer maxDepth 2
  exact ⟨⟨hparse, parse_bounded.1 _ e hparse⟩, _, hfactor, rfl, hkeeps _ _ hfactor⟩

end Abacus
