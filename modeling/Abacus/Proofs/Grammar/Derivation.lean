import Abacus.Expr.Grammar

/-!
# Derivations

The grammar as a relation between tokens and trees, apart from any way of reading them:

    expression := term | expression ('+' | '-') term
    term       := factor | term ('*' | '/') factor
    factor     := '-' factor | number | name | '(' expression ')'

An operator joins the trees of its two sides, a minus sign turns the sign of a constant or stands
for a product with minus one, and a group has the tree of what stands in it.  Beside the tree a
derivation has a *nesting*: the number of groups and minus signs around its innermost factor.

## Main definitions

* `Level` — the three syntactic categories.
* `Operator.token` — the token an operator is written as.
* `Expr.negated` — the tree of a factor with a minus sign before it.
* `Derives level ts e n` — the tokens `ts` derive `level` with the tree `e` and the nesting `n`.
-/

namespace Abacus

/-- The syntactic categories of the grammar. -/
inductive Level
  | expression
  | term
  | factor

/-- The token that an operator is written as between its sides. -/
def Operator.token : Operator → Token
  | add => .plus
  | subtract => .minus
  | multiply => .star
  | divide => .slash

/-- The tree of a factor with a minus sign before it. -/
def Expr.negated : Expr → Expr
  | constant value => constant (-value)
  | e => operation (constant (.integer (-1))) .multiply e

/-- `Derives level ts e n` says that the tokens `ts` derive `level` with the tree `e`, and that at
most `n` groups and minus signs stand around any factor, and `n` around some. -/
inductive Derives : Level → List Token → Expr → Nat → Prop
  | ofTerm {ts : List Token} {e : Expr} {n : Nat} :
      Derives .term ts e n → Derives .expression ts e n
  | sum {ls rs : List Token} {l r : Expr} {m n : Nat} {op : Operator} :
      op = .add ∨ op = .subtract → Derives .expression ls l m → Derives .term rs r n →
      Derives .expression (ls ++ op.token :: rs) (.operation l op r) (max m n)
  | ofFactor {ts : List Token} {e : Expr} {n : Nat} :
      Derives .factor ts e n → Derives .term ts e n
  | product {ls rs : List Token} {l r : Expr} {m n : Nat} {op : Operator} :
      op = .multiply ∨ op = .divide → Derives .term ls l m → Derives .factor rs r n →
      Derives .term (ls ++ op.token :: rs) (.operation l op r) (max m n)
  | number (value : Number) : Derives .factor [.number value] (.constant value) 0
  | name (name : String) : Derives .factor [.identifier name] (.reference name) 0
  | minus {ts : List Token} {e : Expr} {n : Nat} :
      Derives .factor ts e n → Derives .factor (.minus :: ts) e.negated (n + 1)
  | group {ts : List Token} {e : Expr} {n : Nat} :
      Derives .expression ts e n →
      Derives .factor (.openParen :: (ts ++ [.closeParen])) e (n + 1)

/-- Between factors an operator of either level makes an expression. -/
theorem Derives.operation {ls rs : List Token} {l r : Expr} {m n : Nat} {op : Operator}
    (hl : Derives .factor ls l m) (hr : Derives .factor rs r n) :
    Derives .expression (ls ++ op.token :: rs) (.operation l op r) (max m n) := by
  by_cases hop : op = .multiply ∨ op = .divide
  · exact .ofTerm (.product hop (.ofFactor hl) hr)
  · have hop' : op = .add ∨ op = .subtract := by cases op <;> simp at hop ⊢
    exact .sum hop' (.ofTerm (.ofFactor hl)) (.ofFactor hr)

theorem Expr.depth_le_depth_negated (e : Expr) : e.depth ≤ e.negated.depth := by
  cases e with
  | constant value => exact Nat.le_refl _
  | reference name => exact Nat.le_succ _
  | operation left operator right => simp only [negated, depth_operation, depth_constant]; omega

/-! ### The operators of a level -/

namespace Operator

@[simp] theorem ofToken?_token (op : Operator) : ofToken? op.token = some op := by
  cases op <;> rfl

theorem token_of_ofToken? {token : Token} {op : Operator} (h : ofToken? token = some op) :
    token = op.token := by
  cases token <;> cases h <;> rfl

theorem joinsTerms_iff {op : Operator} :
    op.joinsTerms = true ↔ op = .add ∨ op = .subtract := by
  cases op <;> simp [joinsTerms]

theorem joinsFactors_iff {op : Operator} :
    op.joinsFactors = true ↔ op = .multiply ∨ op = .divide := by
  cases op <;> simp [joinsFactors]

theorem ofTokenAt?_token {level : Operator → Bool} {op : Operator} (h : level op = true) :
    ofTokenAt? level op.token = some op := by
  simp [ofTokenAt?, Option.filter, h]

theorem ofTokenAt?_token_of_false {level : Operator → Bool} {op : Operator} (h : level op = false) :
    ofTokenAt? level op.token = none := by
  simp [ofTokenAt?, Option.filter, h]

/-- What a level takes for an operator is the token of an operator of that level. -/
theorem of_ofTokenAt?_eq_some {level : Operator → Bool} {token : Token} {op : Operator}
    (h : ofTokenAt? level token = some op) : token = op.token ∧ level op = true := by
  obtain ⟨hop, hlevel⟩ := Option.filter_eq_some_iff.mp h
  exact ⟨token_of_ofToken? hop, hlevel⟩

end Operator

end Abacus
