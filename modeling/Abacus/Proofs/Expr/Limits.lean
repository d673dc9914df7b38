import Abacus.Proofs.Expr.EarliestErrors
import Abacus.Proofs.Grammar.Crossings

/-!
# Where lists of tokens are too deep

A list of tokens that is too deep is refused at the token that crosses the limit.  A chain of
numbers and names gets deeper by one level with each operator, so it is the number of its operands
that is limited.

## Main definitions

* `Operand` — a number or a name.
* `chainTokens`, `chainExpr` — a chain of operands, and the tree it has if its operators are of one
  level.

## Main results

* `derives_chain`, `chain_tooDeep` — chains within the limit, and one operator past it.
* `parse_chain` — **a chain is read if it has no more operands than the limit allows.**
* `tooDeep_at_crossing` — **lists are too deep at the token that crosses the limit.**
-/

namespace Abacus

/-! ### Chains of operands -/

theorem Operator.joinsFactors_of_joinsTerms {op : Operator} (h : op.joinsTerms = true) :
    op.joinsFactors = false := by
  cases op <;> first | rfl | cases h

/-- A number or a name. -/
inductive Operand
  | number (value : Number)
  | name (text : String)

namespace Operand

/-- The operand as a token. -/
def token : Operand → Token
  | number value => .number value
  | name text => .identifier text

/-- The operand as a tree. -/
def expr : Operand → Expr
  | number value => .constant value
  | name text => .reference text

@[simp] theorem depth_expr (operand : Operand) : operand.expr.depth = 1 := by
  cases operand <;> rfl

theorem derives (operand : Operand) : Derives .factor [operand.token] operand.expr 0 := by
  cases operand with
  | number value => exact .number value
  | name text => exact .name text

end Operand

/-- The tokens of a chain: an operand, and others with operators before them. -/
def chainTokens (first : Operand) (rest : List (Operator × Operand)) : List Token :=
  first.token :: rest.flatMap fun joined => [joined.1.token, joined.2.token]

/-- The tree of a chain, joined from the left. -/
def chainExpr (first : Operand) (rest : List (Operator × Operand)) : Expr :=
  rest.foldl (fun e joined => .operation e joined.1 joined.2.expr) first.expr

section Chain

variable {category operandCategory : Level} {ops : Operator → Bool} {first : Operand}
  {rest front back : List (Operator × Operand)} {joined : Operator × Operand}

theorem chainTokens_append : chainTokens first (front ++ joined :: back)
    = chainTokens first front ++ joined.1.token :: joined.2.token ::
        back.flatMap fun joined => [joined.1.token, joined.2.token] := by
  simp [chainTokens]

theorem chainExpr_append_singleton : chainExpr first (front ++ [joined])
    = .operation (chainExpr first front) joined.1 joined.2.expr := by
  simp [chainExpr]

theorem length_chainTokens : (chainTokens first rest).length = 2 * rest.length + 1 := by
  simp [chainTokens, Nat.mul_comm]

/-- Every operator adds a level. -/
theorem depth_chainExpr : (chainExpr first rest).depth = rest.length + 1 := by
  -- Trees are joined from the left, so the induction takes the last operator off.
  induction rest using List.reverseRecOn with
  | nil => exact first.depth_expr
  | append_singleton front joined ih =>
    rw [chainExpr_append_singleton, Expr.depth_operation, ih, joined.2.depth_expr,
      List.length_append, List.length_singleton]
    omega

theorem ChainOf.derives_operand (hchain : ChainOf category ops operandCategory)
    (operand : Operand) : Derives operandCategory [operand.token] operand.expr 0 := by
  cases hchain with
  | terms => exact .ofFactor operand.derives
  | factors => exact operand.derives

/-- **A chain derives the tree joined from the left.** -/
theorem derives_chain (hchain : ChainOf category ops operandCategory)
    (hops : ∀ joined ∈ rest, ops joined.1 = true) :
    Derives category (chainTokens first rest) (chainExpr first rest) 0 := by
  induction rest using List.reverseRecOn with
  | nil => exact hchain.derives_of (hchain.derives_operand first)
  | append_singleton front joined ih =>
    obtain ⟨hfront, hjoined⟩ := List.forall_mem_append.mp hops
    have hop := hjoined joined (List.mem_singleton_self _)
    rw [chainTokens_append, chainExpr_append_singleton]
    exact hchain.derives hop (ih hfront) (hchain.derives_operand joined.2)

theorem ChainOf.derives_expression (hchain : ChainOf category ops operandCategory) {ts : List Token}
    {e : Expr} {n : Nat} (h : Derives category ts e n) : Derives .expression ts e n := by
  cases hchain with
  | terms => exact h
  | factors => exact .ofTerm h

variable {limit room : Nat} {stop : Stop} {lts tokens : List Located} {next : Located}

/-- **A chain as deep as the limit allows is too deep at the operator behind it.** -/
theorem chain_tooDeep (hchain : ChainOf category ops operandCategory)
    (hfront : ∀ joined ∈ front, ops joined.1 = true) (hop : ops joined.1 = true)
    (hlts : lts.map Located.token = chainTokens first front) (hnext : next.token = joined.1.token)
    {operand : Located} (hoperand : operand.token = joined.2.token)
    (hends : ops = Operator.joinsTerms → EndsChain stop Operator.joinsFactors tokens)
    (hlimit : front.length + 1 = limit) :
    Rule.expression limit stop room (lts ++ next :: operand :: tokens)
      = .error (.tooDeep limit next.position) := by
  have hderives : Derives category (chainTokens first front) (chainExpr first front) 0 :=
    derives_chain hchain hfront
  have hdepth : (chainExpr first front).depth = limit := depth_chainExpr.trans hlimit
  have hdeep : limit < (Expr.operation (chainExpr first front) joined.1 joined.2.expr).depth := by
    rw [Expr.depth_operation, hdepth]
    omega
  have hpos : joined.2.expr.depth ≤ limit := by
    rw [joined.2.depth_expr]
    omega
  -- Both sides of the operator are read within the limit; only joining them is too deep.
  have hright := reaches_of_derives stop (hchain.derives_operand joined.2) room [operand]
    (operand :: tokens) tokens (Nat.zero_le _) hpos (by simp [hoperand]) rfl
  have hleft := reaches_of_derives stop hderives room lts _ (next :: operand :: tokens)
    (Nat.zero_le _) (Nat.le_of_eq hdepth) hlts rfl
  cases hchain with
  -- The two levels differ in which rule the operator is met by: the rule of sums calls that of
  -- products for its right side, which then has to stop behind it.
  | terms =>
    obtain ⟨hlt, hterm⟩ := hright
    rw [extend_of_endsChain (hends rfl)] at hterm
    have hfactors := Operator.joinsFactors_of_joinsTerms hop
    obtain ⟨hl, hexpression⟩ := hleft (endsChain_operator hnext hfactors)
    exact hexpression.trans (extend_operator_tooDeep stop hl hnext hop hterm hdeep)
  | factors =>
    obtain ⟨hlt, hfactor⟩ := hright
    obtain ⟨hl, hterm⟩ := hleft
    exact expression_error
      (hterm.trans (extend_operator_tooDeep stop hl hnext hop hfactor hdeep))

end Chain

/-! ### Lists of tokens -/

section

variable {tokens : List Token} {first : Operand} {rest : List (Operator × Operand)}

theorem isEof_chainTokens {token : Token} (h : token ∈ chainTokens first rest) :
    token.isEof = false := by
  have hoperand : ∀ operand : Operand, operand.token.isEof = false := by
    intro operand
    cases operand <;> rfl
  have hoperator : ∀ op : Operator, op.token.isEof = false := by
    intro op
    cases op <;> rfl
  rcases List.mem_cons.mp h with rfl | h
  · exact hoperand first
  · obtain ⟨joined, -, h⟩ := List.mem_flatMap.mp h
    rcases List.mem_pair.mp h with rfl | rfl
    · exact hoperator joined.1
    · exact hoperand joined.2

theorem untilEof_chainTokens : untilEof (chainTokens first rest) = chainTokens first rest := by
  refine List.takeWhile_eq_self_iff.mpr fun token htoken => ?_
  rw [isEof_chainTokens htoken]
  rfl

/-- The operator with a given number stands behind as many operands and the operators before it. -/
theorem getElem?_chainTokens (number : Nat) :
    (chainTokens first rest)[2 * number + 1]? = rest[number]?.map fun joined => joined.1.token := by
  -- An operator and its operand are two tokens, so each step of the number is two steps of the
  -- list.
  induction rest generalizing first number with
  | nil => simp [chainTokens]
  | cons joined rest ih =>
    cases number with
    | zero => rfl
    | succ number => exact @ih joined.2 number

/-- Behind an operand of a chain there is its end, or an operator of the same level. -/
theorem endsChain_chain {stop : Stop} {position : Nat} (hstop : stop = .ending position)
    {ops : Operator → Bool} (hterms : ops = Operator.joinsTerms)
    (hops : ∀ joined ∈ rest, ops joined.1 = true) {lts : List Located}
    (hlts : lts.map Located.token
      = rest.flatMap fun joined => [joined.1.token, joined.2.token]) :
    EndsChain stop Operator.joinsFactors lts := by
  subst hterms
  cases rest with
  | nil =>
    obtain rfl := List.map_eq_nil_iff.mp hlts
    exact ⟨position, hstop⟩
  | cons joined rest =>
    rw [List.flatMap_cons, List.cons_append] at hlts
    obtain ⟨next, lts, rfl, hnext, -⟩ := List.map_eq_cons_iff.mp hlts
    exact endsChain_operator hnext
      (Operator.joinsFactors_of_joinsTerms (hops joined List.mem_cons_self))

/-- **A chain is read if it has no more operands than the limit allows**, and otherwise it is too
deep at the operator whose number is the limit. -/
theorem parse_chain {ops : Operator → Bool} {category operandCategory : Level}
    (hchain : ChainOf category ops operandCategory) (hops : ∀ joined ∈ rest, ops joined.1 = true)
    (htokens : untilEof tokens = chainTokens first rest) :
    (rest.length + 1 ≤ maxDepth → Expr.parseTokens tokens = .ok (chainExpr first rest)) ∧
    (maxDepth < rest.length + 1 →
      Expr.parseTokens tokens
        = .error (.parse (.nestingTooDeep maxDepth (2 * (maxDepth - 1) + 1)))) := by
  have hmap : (Input.ofTokens 0 tokens).tokens.map Located.token = chainTokens first rest :=
    (Input.map_token_ofTokens tokens 0).trans htokens
  obtain ⟨position, hstop⟩ := Input.stop_ofTokens tokens 0
  constructor
  · intro hle
    have hderives : Derives .expression (chainTokens first rest) (chainExpr first rest) 0 :=
      hchain.derives_expression (derives_chain hchain hops)
    exact Input.parseWithin_of_derives hstop (hmap.symm ▸ hderives) (Nat.zero_le _)
      (depth_chainExpr.trans_le hle)
  · intro hlt
    -- The operator with the number of the limit divides the chain: what is before it is as deep as
    -- may be.
    obtain ⟨front, joined, back, rfl, hfront⟩ :
        ∃ front joined back, rest = front ++ joined :: back ∧ front.length = maxDepth - 1 := by
      have hpos : 0 < maxDepth := by decide
      have hindex : maxDepth - 1 < rest.length := by omega
      refine ⟨rest.take (maxDepth - 1), rest[maxDepth - 1], rest.drop (maxDepth - 1 + 1), ?_, ?_⟩
      · rw [List.getElem_cons_drop, List.take_append_drop]
      · rw [List.length_take, Nat.min_eq_left (Nat.le_of_lt hindex)]
    obtain ⟨hopsl, hops⟩ := List.forall_mem_append.mp hops
    obtain ⟨hop, hopsr⟩ := List.forall_mem_cons.mp hops
    rw [chainTokens_append] at hmap
    -- Divide the located tokens in the same places.
    obtain ⟨lts, lrest, hlocated, hlts, hmap⟩ := List.map_eq_append_iff.mp hmap
    obtain ⟨next, lrest, rfl, hnext, hmap⟩ := List.map_eq_cons_iff.mp hmap
    obtain ⟨operand, lback, rfl, hoperand, hback⟩ := List.map_eq_cons_iff.mp hmap
    have hlimit : front.length + 1 = maxDepth := by rw [hfront]; rfl
    have hdeep : Rule.expression maxDepth (Input.ofTokens 0 tokens).stop maxDepth
        (lts ++ next :: operand :: lback) = .error (.tooDeep maxDepth next.position) :=
      chain_tooDeep hchain hopsl hop hlts hnext hoperand
        (fun hterms => endsChain_chain hstop hterms hopsr hback) hlimit
    -- Positions count tokens, of which there are two for each operator before this one and one
    -- more.
    have hposition : next.position = 2 * (maxDepth - 1) + 1 := by
      rw [Input.position_of_tokens_ofTokens hlocated, Nat.zero_add, ← List.length_map Located.token,
        hlts, length_chainTokens, hfront]
    rw [hposition] at hdeep
    show (Rule.expression maxDepth _ maxDepth (Input.ofTokens 0 tokens).tokens).bind _ = _
    rw [hlocated, hdeep]
    rfl

end

/-- **Lists of tokens are too deep at the token that crosses the limit.**  This token begins a group
or a minus sign inside of as many as may be open, and how many are open is said by the tokens before
it; or it is an operator or a minus sign with complete operands, the deepest of which is as deep as
may be.  So it takes more tokens than the limit to be too deep.  A chain of numbers and names with
operators of one level has its tree if there are no more operands than the limit, and otherwise it
is too deep at the operator with this number. -/
theorem tooDeep_at_crossing (tokens : List Token) :
    (∀ limit i, (Parser.ofTokens tokens).parse.1 = .error (.parse (.nestingTooDeep limit i)) →
      limit = maxDepth ∧ ∃ before token after, untilEof tokens = before ++ token :: after ∧
        before.length = i ∧ Crosses maxDepth before token after) ∧
    (∀ level level' before n n', Begins level before n → Begins level' before n' → n = n') ∧
    ((untilEof tokens).length ≤ maxDepth → ∀ limit i,
      (Parser.ofTokens tokens).parse.1 ≠ .error (.parse (.nestingTooDeep limit i))) ∧
    ∀ (ops : Operator → Bool) (first : Operand) (rest : List (Operator × Operand)),
      ops = Operator.joinsTerms ∨ ops = Operator.joinsFactors →
      (∀ joined ∈ rest, ops joined.1 = true) → untilEof tokens = chainTokens first rest →
      (rest.length + 1 ≤ maxDepth →
        (Parser.ofTokens tokens).parse.1 = .ok (chainExpr first rest)) ∧
      (maxDepth < rest.length + 1 → ∃ i,
        (Parser.ofTokens tokens).parse.1 = .error (.parse (.nestingTooDeep maxDepth i)) ∧
        i = 2 * (maxDepth - 1) + 1 ∧
        (untilEof tokens)[i]? = rest[maxDepth - 1]?.map fun joined => joined.1.token) := by
  have houtcome : (Parser.ofTokens tokens).parse.1 = Expr.parseTokens tokens :=
    Parser.outcome_ofTokens tokens
  rw [houtcome]
  -- The first and the third statement both rest on where the crossing is.
  have hcrossing : ∀ limit i,
      Expr.parseTokens tokens = .error (.parse (.nestingTooDeep limit i)) →
      limit = maxDepth ∧ ∃ before token after, untilEof tokens = before ++ token :: after ∧
        before.length = i ∧ Crosses maxDepth before token after := by
    intro limit i h
    obtain ⟨hlimit, lts, next, rest, hlocated, hposition, hcrosses⟩ :=
      Input.crossesAt_of_parseWithin (by decide) h
    refine ⟨hlimit, lts.map Located.token, next.token, rest.map Located.token, ?_, ?_, hcrosses⟩
    · rw [untilEof, ← Input.map_token_ofTokens tokens 0, hlocated, List.map_append, List.map_cons]
    · rw [← hposition, Input.position_of_tokens_ofTokens hlocated, List.length_map, Nat.zero_add]
  refine ⟨hcrossing, fun _ _ _ _ _ h h' => h.unique h', ?_, ?_⟩
  · -- A list with a token that crosses the limit has more tokens than the limit.
    intro hle limit i h
    obtain ⟨-, before, token, after, htokens, -, hcrosses⟩ := hcrossing limit i h
    have hlt := hcrosses.limit_lt_length
    rw [← htokens] at hlt
    exact absurd hle (Nat.not_le.mpr hlt)
  · intro ops first rest hlevel hops htokens
    -- The operators of one level make up one kind of chain.
    obtain ⟨category, operandCategory, hchain⟩ :
        ∃ category operandCategory, ChainOf category ops operandCategory := by
      rcases hlevel with rfl | rfl
      · exact ⟨_, _, .terms⟩
      · exact ⟨_, _, .factors⟩
    obtain ⟨hwithin, hpast⟩ := parse_chain hchain hops htokens
    refine ⟨hwithin, fun hlt => ⟨_, hpast hlt, rfl, ?_⟩⟩
    rw [htokens]
    exact getElem?_chainTokens (maxDepth - 1)

/-- In a sum of names it is the limit's own operator that crosses it. -/
theorem tooDeep_at_crossing_sum :
    let rest : List (Operator × Operand) := List.replicate 256 (.add, .name "x")
    let tokens := chainTokens (.name "x") rest
    (untilEof tokens = tokens ∧ 256 < rest.length + 1) ∧
      (Parser.ofTokens tokens).parse.1 = .error (.parse (.nestingTooDeep 256 511)) ∧
      tokens[511]? = some .plus ∧
      ∃ before token after, tokens = before ++ token :: after ∧ before.length = 511 ∧
        Crosses 256 before token after := by
  intro rest tokens
  have htokens : untilEof tokens = tokens := untilEof_chainTokens
  have hops : ∀ joined ∈ rest, Operator.joinsTerms joined.1 = true := by
    intro joined hjoined
    rw [List.eq_of_mem_replicate hjoined]
    rfl
  have hlength : 256 < rest.length + 1 := by
    rw [List.length_replicate]
    decide
  obtain ⟨hcrossing, -, -, hchain⟩ := tooDeep_at_crossing tokens
  obtain ⟨i, hparse, rfl, htoken⟩ :=
    (hchain Operator.joinsTerms (.name "x") rest (.inl rfl) hops htokens).2 hlength
  obtain ⟨-, hcrosses⟩ := hcrossing _ _ hparse
  rw [htokens] at htoken hcrosses
  have hoperator : rest[maxDepth - 1]? = some (.add, .name "x") :=
    List.getElem?_replicate_of_lt (by decide)
  rw [hoperator] at htoken
  exact ⟨⟨htokens, hlength⟩, hparse, htoken, hcrosses⟩

end Abacus
