import Abacus.Expr.Evaluation
import Abacus.Proofs.Expr.Buffering
import Abacus.Proofs.Number.Opposites

/-!
# Numbers in the place of names

To write a number where a name stood is as good as to bind the name to it.  The tree need not have
the same shape: a minus sign before a name stands for a product, and before a number it turns the
sign.  So whole branches of signs and groups around the name shrink to a constant, which is the
value that these branches have under the binding.

## Main definitions

* `Token.filled` — a token with the number in the place of the name.
* `Expr.Fills` — a tree with the number in the place of the name, signs before it turned.

## Main results

* `Expr.Fills.negated` — signs may be turned in both trees.
* `Expr.Fills.evaluate_eq`, `Expr.Fills.depth_le` — the trees have the same value, and the one with
  the number is not deeper.
* `exists_derives_filled` — the tokens with the number derive such a tree.
* `literal_as_binding` — **a literal is as good as a binding.**
-/

namespace Abacus

variable {name : String} {value : Number}

/-! ### Tokens -/

/-- The token with the number in the place of the name. -/
def Token.filled (name : String) (value : Number) : Token → Token
  | identifier other => if other = name then number value else identifier other
  | token => token

namespace Token

@[simp] theorem filled_operator (op : Operator) : op.token.filled name value = op.token := by
  cases op <;> rfl

@[simp] theorem isEof_filled (token : Token) : (token.filled name value).isEof = token.isEof := by
  cases token with
  | identifier other =>
    rw [filled]
    split <;> rfl
  | _ => rfl

/-- The tokens up to the first `eof` are the same ones. -/
theorem takeWhile_map_filled (tokens : List Token) :
    (tokens.map (filled name value)).takeWhile (fun token => !token.isEof)
      = (tokens.takeWhile fun token => !token.isEof).map (filled name value) := by
  rw [List.takeWhile_map]
  simp [Function.comp_def]

end Token

/-! ### Trees -/

/-- `Fills name value e e'` says that `e'` is the tree `e` with the number in the place of the name.
A part of `e` that is nothing but this name, with signs before it, is a constant in `e'`; it has
this value, and the sign of that can be turned again. -/
inductive Expr.Fills (name : String) (value : Number) : Expr → Expr → Prop
  | constant (other : Number) : Fills name value (.constant other) (.constant other)
  | reference {other : String} (h : other ≠ name) :
      Fills name value (.reference other) (.reference other)
  | folded {e : Expr} {result : Number} (hresult : result ≠ .least)
      (h : ∀ bindings : Bindings, e.evaluate (bindings.insert name value) = .ok result) :
      Fills name value e (.constant result)
  | operation {l l' r r' : Expr} {op : Operator} (hl : Fills name value l l')
      (hr : Fills name value r r') : Fills name value (.operation l op r) (.operation l' op r')

namespace Expr

theorem evaluate_negated {e : Expr} {bindings : Bindings} {result : Number}
    (h : e.evaluate bindings = .ok result) (hresult : result ≠ .least) :
    e.negated.evaluate bindings = .ok (-result) := by
  have hproduct : (operation (constant (.integer (-1))) .multiply e).evaluate bindings
      = .ok (-result) := by
    rw [evaluate_operation, evaluate_constant, h]
    exact Number.apply_multiply_minusOne hresult
  cases e with
  | constant other =>
    obtain rfl := Except.ok.inj h
    rfl
  | reference other => exact hproduct
  | operation l op r => exact hproduct

namespace Fills

variable {e e' : Expr}

/-- **A sign may be turned in both trees**, though it may stand for a product in only one. -/
theorem negated (h : Fills name value e e') : Fills name value e.negated e'.negated := by
  cases h with
  | constant other => exact .constant (-other)
  | reference hother => exact .operation (.constant _) (.reference hother)
  | folded hresult h =>
    have hopposite := Number.neg_ne_least hresult
    exact .folded hopposite fun bindings => evaluate_negated (h bindings) hresult
  | operation hl hr => exact .operation (.constant _) (.operation hl hr)

/-- **Both trees have the same value**, the first under the binding. -/
theorem evaluate_eq (h : Fills name value e e') (bindings : Bindings) :
    e'.evaluate bindings = e.evaluate (bindings.insert name value) := by
  induction h with
  | constant other => rfl
  | @reference other hother =>
    have hne : compare name other ≠ .eq :=
      fun heq => hother (Std.LawfulEqOrd.eq_of_compare heq).symm
    rw [evaluate_reference, evaluate_reference, Bindings.value, Bindings.value,
      Std.TreeMap.getElem?_insert, if_neg hne]
  | folded _ h => exact (h bindings).symm
  | operation _ _ ihl ihr => rw [evaluate_operation, evaluate_operation, ihl, ihr]

/-- A constant is no deeper than what it stands for. -/
theorem depth_le (h : Fills name value e e') : e'.depth ≤ e.depth := by
  induction h with
  | constant other => exact Nat.le_refl _
  | reference hother => exact Nat.le_refl _
  | folded _ _ => exact depth_pos _
  | operation _ _ ihl ihr =>
    rw [depth_operation, depth_operation]
    omega

end Fills

end Expr

/-! ### Derivations -/

/-- **The tokens with the number derive the tree with the number**, in the same way. -/
theorem exists_derives_filled (hvalue : value ≠ .least) {level : Level} {ts : List Token} {e : Expr}
    {n : Nat} (h : Derives level ts e n) :
    ∃ e', Derives level (ts.map (Token.filled name value)) e' n ∧ Expr.Fills name value e e' := by
  -- The derivation is copied rule by rule; only a name may change the rule that is used.
  induction h with
  | ofTerm _ ih =>
    obtain ⟨e', hderives, hfills⟩ := ih
    exact ⟨e', .ofTerm hderives, hfills⟩
  | ofFactor _ ih =>
    obtain ⟨e', hderives, hfills⟩ := ih
    exact ⟨e', .ofFactor hderives, hfills⟩
  | sum hop _ _ ihl ihr =>
    obtain ⟨l', hl, hfillsl⟩ := ihl
    obtain ⟨r', hr, hfillsr⟩ := ihr
    rw [List.map_append, List.map_cons, Token.filled_operator]
    exact ⟨_, .sum hop hl hr, .operation hfillsl hfillsr⟩
  | product hop _ _ ihl ihr =>
    obtain ⟨l', hl, hfillsl⟩ := ihl
    obtain ⟨r', hr, hfillsr⟩ := ihr
    rw [List.map_append, List.map_cons, Token.filled_operator]
    exact ⟨_, .product hop hl hr, .operation hfillsl hfillsr⟩
  | number other => exact ⟨_, .number other, .constant other⟩
  | name other =>
    rw [List.map_singleton, Token.filled]
    by_cases hother : other = name
    · rw [if_pos hother]
      -- The reference is looked up where the constant stands for itself.
      refine ⟨_, .number value, .folded hvalue fun bindings => ?_⟩
      rw [hother, Expr.evaluate_reference, Bindings.value, Std.TreeMap.getElem?_insert_self]
    · rw [if_neg hother]
      exact ⟨_, .name other, .reference hother⟩
  | minus _ ih =>
    obtain ⟨e', hderives, hfills⟩ := ih
    exact ⟨_, .minus hderives, hfills.negated⟩
  | group _ ih =>
    obtain ⟨e', hderives, hfills⟩ := ih
    rw [List.map_cons, List.map_append, List.map_singleton]
    exact ⟨e', .group hderives, hfills⟩

/-! ### Lists of tokens -/

/-- **A literal is as good as a binding.**  If a list of tokens is an expression, it is one too with
a number in the place of a name, and its value is that which the first one has if the name is bound
to the number, or it has none for the same reason.  The number may be any but the least integer. -/
theorem literal_as_binding (tokens : List Token) (e : Expr) (name : String) (value : Number)
    (hvalue : value ≠ .least) (h : (Parser.ofTokens tokens).parse.1 = .ok e) :
    ∃ e', (Parser.ofTokens (tokens.map (Token.filled name value))).parse.1 = .ok e' ∧
      ∀ bindings : Bindings,
        e'.evaluate bindings = e.evaluate (bindings.insert name value) := by
  have hparse : (Input.ofTokens 0 tokens).parseWithin maxDepth = .ok e :=
    (Parser.outcome_ofTokens tokens).symm.trans h
  -- From the parse to its derivation, from that to the filled one, and back to a parse.
  obtain ⟨n, hderives, hn, hdepth⟩ := Input.derives_of_parseWithin (by decide) hparse
  obtain ⟨e', hderives', hfills⟩ := exists_derives_filled hvalue hderives
  have htokens : (Input.ofTokens 0 (tokens.map (Token.filled name value))).tokens.map Located.token
      = ((Input.ofTokens 0 tokens).tokens.map Located.token).map (Token.filled name value) := by
    rw [Input.map_token_ofTokens, Input.map_token_ofTokens, Token.takeWhile_map_filled]
  obtain ⟨position, hstop⟩ := Input.stop_ofTokens (tokens.map (Token.filled name value)) 0
  have hparse' := Input.parseWithin_of_derives hstop (htokens.symm ▸ hderives') hn
    (Nat.le_trans hfills.depth_le hdepth)
  exact ⟨e', (Parser.outcome_ofTokens _).trans hparse', hfills.evaluate_eq⟩

/-- Signs before the name are turned in the constant, and those before the group around it too; the
product that remains is that of two floats. -/
theorem literal_as_binding_negative_zero :
    let tokens : List Token :=
      [.minus, .openParen, .minus, .identifier "x", .closeParen, .star, .identifier "y"]
    let e : Expr := .operation
      (.operation (.constant (.integer (-1))) .multiply
        (.operation (.constant (.integer (-1))) .multiply (.reference "x")))
      .multiply (.reference "y")
    let zero : Number := .float (-0.0)
    zero ≠ .least ∧ (Parser.ofTokens tokens).parse.1 = .ok e ∧
      ∃ e', (Parser.ofTokens (tokens.map (Token.filled "x" zero))).parse.1 = .ok e' ∧
        ∀ bindings : Bindings, e'.evaluate bindings = e.evaluate (bindings.insert "x" zero) := by
  intro tokens e zero
  have hparse : (Parser.ofTokens tokens).parse.1 = .ok e := by with_unfolding_all rfl
  exact ⟨nofun, hparse, literal_as_binding tokens e "x" zero nofun hparse⟩

end Abacus
