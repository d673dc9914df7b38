import Abacus.Proofs.Grammar.Completeness
import Abacus.Proofs.Outcome

/-!
# What is read can be derived

Whatever a rule reads, the tokens it has taken derive its category with the tree that it built, the
depth that it keeps beside the tree is the depth of that tree, and both limits were kept.

## Main definitions

* `Parsed.IsDerived` — what was read is derived from the tokens taken, within the limits.

## Main results

* `extend_keeps` — what every operator of a chain keeps, the chain keeps.
* `isDerived_extend` — a chain keeps what it has read derived.
* `isDerived_of_factor`, `isDerived_of_expression` — **what is read is derived.**
-/

namespace Abacus

/-- What was read of `tokens` is derived from those of them that are not left, with room for
`room` groups and minus signs, and its depth is true and within the limit. -/
def Parsed.IsDerived (limit room : Nat) (level : Level) (tokens : List Located) {k : Nat}
    (parsed : Parsed k) : Prop :=
  ∃ lts n, tokens = lts ++ parsed.rest ∧ Derives level (lts.map Located.token) parsed.expr n ∧
    n ≤ room ∧ parsed.depth = parsed.expr.depth ∧ parsed.depth ≤ limit

variable {limit room : Nat} {stop : Stop}

theorem resolve_eq_ok {α : Type} {atEnding : Nat → Except Error α} {a : α}
    (h : stop.resolve atEnding = .ok a) : ∃ position, stop = .ending position ∧
      atEnding position = .ok a := by
  cases stop with
  | ending position => exact ⟨position, rfl, h⟩
  | fault error => exact nomatch h

/-- Two derived sides make a derived operation, if the limit allows it. -/
theorem isDerived_join {category operandCategory : Level} {op : Operator}
    (hstep : ∀ {ls rs : List Token} {l r : Expr} {m n : Nat}, Derives category ls l m →
      Derives operandCategory rs r n →
      Derives category (ls ++ op.token :: rs) (.operation l op r) (max m n))
    {tokens tokens' : List Located} {next : Located} {m n : Nat} {left : Parsed n}
    {right : Parsed m} {h : m < n} {joined : { joined : Parsed n // joined.rest.length < m }}
    (hnext : next.token = op.token) (hrest : left.rest = next :: tokens')
    (hleft : left.IsDerived limit room category tokens)
    (hright : right.IsDerived limit room operandCategory tokens')
    (hjoin : left.join limit op next.position right h = .ok joined) :
    joined.1.IsDerived limit room category tokens := by
  obtain ⟨ls, nl, htokens, hls, hnl, hdl, -⟩ := hleft
  obtain ⟨rs, nr, htokens', hrs, hnr, hdr, -⟩ := hright
  unfold Parsed.join at hjoin
  dsimp only at hjoin
  split at hjoin
  · cases hjoin
  · next hlimit =>
    obtain rfl := Except.ok.inj hjoin
    -- the tokens of the operation are those of both sides with the operator between them
    refine ⟨ls ++ next :: rs, max nl nr, ?_, ?_, by omega, ?_, by dsimp only; omega⟩
    · rw [htokens, hrest, htokens']
      simp
    · rw [List.map_append, List.map_cons, hnext]
      exact hstep hls hrs
    · rw [Expr.depth_operation, hdl, hdr]

/-- The tokens left of an operation are those of its right side. -/
theorem rest_of_join {op : Operator} {position m n : Nat} {left : Parsed n} {right : Parsed m}
    {h : m < n} {joined : { joined : Parsed n // joined.rest.length < m }}
    (hjoin : left.join limit op position right h = .ok joined) : joined.1.rest = right.rest := by
  unfold Parsed.join at hjoin
  dsimp only at hjoin
  split at hjoin
  · cases hjoin
  · obtain rfl := Except.ok.inj hjoin
    rfl

/-- **What every operator of a chain keeps, the chain keeps,** and it goes on as long as it can. -/
theorem extend_keeps {level : Operator → Bool} {operand : Rule} {n : Nat} (Keeps : Parsed n → Prop)
    (hstep : ∀ {left : Parsed n} {next : Located} {tokens : List Located} {op : Operator}
      {right : Parsed tokens.length} {h : tokens.length < n}
      {joined : { joined : Parsed n // joined.rest.length < tokens.length }},
      left.rest = next :: tokens → next.token = op.token → level op = true →
      operand tokens = .ok right → left.join limit op next.position right h = .ok joined →
      Keeps left → Keeps joined.1)
    {left parsed : Parsed n} (h : Rule.extend limit stop level operand left = .ok parsed)
    (hleft : Keeps left) : Keeps parsed ∧ EndsChain stop level parsed.rest := by
  -- every operator takes at least one token, so the tokens left grow fewer
  generalize hk : left.rest.length = k
  induction k using Nat.strongRecOn generalizing left with
  | ind k ih =>
    cases hrest : left.rest with
    | nil =>
      rw [Rule.extend_of_nil hrest] at h
      obtain ⟨position, hstop, hok⟩ := resolve_eq_ok h
      obtain rfl := Except.ok.inj hok
      rw [hrest]
      exact ⟨hleft, position, hstop⟩
    | cons next tokens =>
      cases htoken : Operator.ofTokenAt? level next.token with
      | none =>
        rw [Rule.extend_of_none hrest htoken] at h
        obtain rfl := Except.ok.inj h
        rw [hrest]
        exact ⟨hleft, htoken⟩
      | some op =>
        rw [Rule.extend_of_some hrest htoken] at h
        obtain ⟨right, hright, h⟩ := Except.bind_eq_ok_iff.mp h
        obtain ⟨joined, hjoin, h⟩ := Except.bind_eq_ok_iff.mp h
        obtain ⟨hnext, hop⟩ := Operator.of_ofTokenAt?_eq_some htoken
        have hlt : joined.1.rest.length < k := by
          have := joined.2
          rw [← hk, hrest, List.length_cons]
          omega
        exact ih _ hlt h (hstep hrest hnext hop hright hjoin hleft) rfl

/-- **A chain keeps what it has read derived as it goes on.** -/
theorem isDerived_extend {level : Operator → Bool} {operand : Rule}
    {category operandCategory : Level}
    (hstep : ∀ {ls rs : List Token} {l r : Expr} {m n : Nat} {op : Operator}, level op = true →
      Derives category ls l m → Derives operandCategory rs r n →
      Derives category (ls ++ op.token :: rs) (.operation l op r) (max m n))
    (hoperand : ∀ (tokens : List Located) (parsed : Parsed tokens.length),
      operand tokens = .ok parsed → parsed.IsDerived limit room operandCategory tokens)
    {tokens : List Located} {n : Nat} {left parsed : Parsed n}
    (h : Rule.extend limit stop level operand left = .ok parsed)
    (hleft : left.IsDerived limit room category tokens) :
    parsed.IsDerived limit room category tokens := by
  refine (extend_keeps (Parsed.IsDerived limit room category tokens) ?_ h hleft).1
  intro left next tokens' op right _ joined hrest hnext hop hright hjoin hleft
  exact isDerived_join (hstep hop) hnext hrest hleft (hoperand tokens' right hright) hjoin

/-- A category of longer chains holds what its operands do. -/
theorem Parsed.IsDerived.imp {category category' : Level} {tokens : List Located} {k : Nat}
    {parsed : Parsed k} (h : parsed.IsDerived limit room category tokens)
    (himp : ∀ {ts : List Token} {e : Expr} {n : Nat}, Derives category ts e n →
      Derives category' ts e n) : parsed.IsDerived limit room category' tokens := by
  obtain ⟨lts, n, htokens, hderives, hrest⟩ := h
  exact ⟨lts, n, htokens, himp hderives, hrest⟩

/-- The rule for a chain reads what its category derives. -/
theorem isDerived_chain {level : Operator → Bool} {operand : Rule}
    {category operandCategory : Level}
    (hof : ∀ {ts : List Token} {e : Expr} {n : Nat}, Derives operandCategory ts e n →
      Derives category ts e n)
    (hstep : ∀ {ls rs : List Token} {l r : Expr} {m n : Nat} {op : Operator}, level op = true →
      Derives category ls l m → Derives operandCategory rs r n →
      Derives category (ls ++ op.token :: rs) (.operation l op r) (max m n))
    (hoperand : ∀ (tokens : List Located) (parsed : Parsed tokens.length),
      operand tokens = .ok parsed → parsed.IsDerived limit room operandCategory tokens)
    (tokens : List Located) (parsed : Parsed tokens.length)
    (h : Rule.chain limit stop level operand tokens = .ok parsed) :
    parsed.IsDerived limit room category tokens := by
  obtain ⟨left, hleft, hextend⟩ := Except.bind_eq_ok_iff.mp h
  exact isDerived_extend hstep hoperand hextend ((hoperand tokens left hleft).imp hof)

/-- Terms and expressions are derived if the factors in them are. -/
theorem isDerived_expressionOver {factor : Rule}
    (hfactor : ∀ (tokens : List Located) (parsed : Parsed tokens.length),
      factor tokens = .ok parsed → parsed.IsDerived limit room .factor tokens)
    (tokens : List Located) (parsed : Parsed tokens.length)
    (h : Rule.expressionOver limit stop factor tokens = .ok parsed) :
    parsed.IsDerived limit room .expression tokens := by
  refine isDerived_chain Derives.ofTerm
    (fun hop => Derives.sum (Operator.joinsTerms_iff.mp hop)) ?_ tokens parsed h
  exact isDerived_chain Derives.ofFactor
    (fun hop => Derives.product (Operator.joinsFactors_iff.mp hop)) hfactor

/-! ### Factors -/

theorem Parsed.IsDerived.negate {tokens : List Located} {next : Located}
    {parsed negated : Parsed tokens.length} (hnext : next.token = .minus)
    (h : parsed.IsDerived limit room .factor tokens)
    (hnegate : parsed.negate limit next.position = .ok negated) :
    (negated.widen (Nat.le_succ _)).IsDerived limit (room + 1) .factor (next :: tokens) := by
  obtain ⟨e, depth, rest, hrest⟩ := parsed
  obtain ⟨lts, n, htokens, hderives, hroom, hdepth, hlimit⟩ := h
  dsimp only at htokens hderives hdepth hlimit
  have hminus : Derives .factor ((next :: lts).map Located.token) e.negated (n + 1) := by
    rw [List.map_cons, hnext]
    exact Derives.minus hderives
  unfold Parsed.negate at hnegate
  -- A constant takes the sign itself and gets no deeper; anything else becomes a product, which may
  -- be too deep.
  cases e with
  | constant value =>
    obtain rfl := Except.ok.inj hnegate
    exact ⟨next :: lts, n + 1, by simp [Parsed.widen, htokens], hminus, by omega, hdepth, hlimit⟩
  | reference name =>
    dsimp only at hnegate
    split at hnegate
    · cases hnegate
    · obtain rfl := Except.ok.inj hnegate
      refine ⟨next :: lts, n + 1, by simp [Parsed.widen, htokens], hminus, by omega, ?_, ?_⟩
      · simp [Parsed.widen, hdepth]
      · simp only [Parsed.widen]; omega
  | operation l op r =>
    dsimp only at hnegate
    split at hnegate
    · cases hnegate
    · obtain rfl := Except.ok.inj hnegate
      refine ⟨next :: lts, n + 1, by simp [Parsed.widen, htokens], hminus, by omega, ?_, ?_⟩
      · simp [Parsed.widen, hdepth]
      · simp only [Parsed.widen]; omega

theorem Parsed.IsDerived.closeGroup {tokens : List Located} {next : Located}
    {parsed closed : Parsed tokens.length} (hnext : next.token = .openParen)
    (h : parsed.IsDerived limit room .expression tokens)
    (hclose : parsed.closeGroup stop = .ok closed) :
    (closed.widen (Nat.le_succ _)).IsDerived limit (room + 1) .factor (next :: tokens) := by
  obtain ⟨e, depth, rest, hrest⟩ := parsed
  obtain ⟨lts, n, htokens, hderives, hroom, hdepth, hlimit⟩ := h
  dsimp only at htokens hderives hdepth hlimit
  -- A group is read only if a parenthesis comes next; all else is a complaint.
  cases rest with
  | nil =>
    rw [Parsed.closeGroup_nil] at hclose
    obtain ⟨_, -, hok⟩ := resolve_eq_ok hclose
    cases hok
  | cons close rest =>
    by_cases hparen : close.token = .closeParen
    · rw [Parsed.closeGroup_closeParen hparen] at hclose
      obtain rfl := Except.ok.inj hclose
      refine ⟨next :: (lts ++ [close]), n + 1, ?_, ?_, by omega, hdepth, hlimit⟩
      · simp [Parsed.widen, htokens]
      · rw [List.map_cons, List.map_append, List.map_singleton, hnext, hparen]
        exact Derives.group hderives
    · rw [Parsed.closeGroup_of_ne hparen] at hclose
      cases hclose

theorem isDerived_number (hpos : 0 < limit) {next : Located} {tokens : List Located}
    {value : Number} (hnext : next.token = .number value) {parsed : Parsed (tokens.length + 1)}
    (h : Rule.factor limit stop room (next :: tokens) = .ok parsed) :
    parsed.IsDerived limit room .factor (next :: tokens) := by
  rw [Rule.factor_number hnext] at h
  obtain rfl := Except.ok.inj h
  refine ⟨[next], 0, rfl, ?_, Nat.zero_le _, rfl, hpos⟩
  rw [List.map_singleton, hnext]
  exact Derives.number value

theorem isDerived_identifier (hpos : 0 < limit) {next : Located} {tokens : List Located}
    {name : String} (hnext : next.token = .identifier name) {parsed : Parsed (tokens.length + 1)}
    (h : Rule.factor limit stop room (next :: tokens) = .ok parsed) :
    parsed.IsDerived limit room .factor (next :: tokens) := by
  rw [Rule.factor_identifier hnext] at h
  obtain rfl := Except.ok.inj h
  refine ⟨[next], 0, rfl, ?_, Nat.zero_le _, rfl, hpos⟩
  rw [List.map_singleton, hnext]
  exact Derives.name name

/-- **What is read as a factor is derived.** -/
theorem isDerived_of_factor (hpos : 0 < limit) :
    ∀ (room : Nat) (tokens : List Located) (parsed : Parsed tokens.length),
      Rule.factor limit stop room tokens = .ok parsed →
      parsed.IsDerived limit room .factor tokens := by
  intro room
  -- Signs and groups are read with less room; without room they are errors.
  induction room with
  | zero =>
    intro tokens parsed h
    cases tokens with
    | nil =>
      rw [Rule.factor_nil] at h
      obtain ⟨_, -, hok⟩ := resolve_eq_ok h
      exact nomatch hok
    | cons next tokens =>
      cases hnext : next.token with
      | number value => exact isDerived_number hpos hnext h
      | identifier name => exact isDerived_identifier hpos hnext h
      | minus => rw [Rule.factor_zero (.inl hnext)] at h; exact nomatch h
      | openParen => rw [Rule.factor_zero (.inr hnext)] at h; exact nomatch h
      | _ => rw [Rule.factor_illegal (by simp [hnext]) (by simp [hnext]) (by simp [hnext])
          (by simp [hnext])] at h; exact nomatch h
  | succ room ih =>
    intro tokens parsed h
    cases tokens with
    | nil =>
      rw [Rule.factor_nil] at h
      obtain ⟨_, -, hok⟩ := resolve_eq_ok h
      exact nomatch hok
    | cons next tokens =>
      cases hnext : next.token with
      | number value => exact isDerived_number hpos hnext h
      | identifier name => exact isDerived_identifier hpos hnext h
      | minus =>
        rw [Rule.factor_minus hnext] at h
        obtain ⟨inner, hinner, h⟩ := Except.bind_eq_ok_iff.mp h
        obtain ⟨negated, hnegate, rfl⟩ := Except.map_eq_ok_iff.mp h
        -- The inner factor is derived with less room, and the sign derives one more level.
        exact (ih tokens inner hinner).negate hnext hnegate
      | openParen =>
        rw [Rule.factor_openParen hnext] at h
        obtain ⟨closed, hgroup, rfl⟩ := Except.map_eq_ok_iff.mp h
        obtain ⟨inner, hinner, hclose⟩ := Except.bind_eq_ok_iff.mp hgroup
        exact (isDerived_expressionOver ih tokens inner hinner).closeGroup hnext hclose
      | _ => rw [Rule.factor_illegal (by simp [hnext]) (by simp [hnext]) (by simp [hnext])
          (by simp [hnext])] at h; exact nomatch h

/-- **What is read as an expression is derived.** -/
theorem isDerived_of_expression (hpos : 0 < limit) {tokens : List Located}
    {parsed : Parsed tokens.length}
    (h : Rule.expression limit stop room tokens = .ok parsed) :
    parsed.IsDerived limit room .expression tokens :=
  isDerived_expressionOver (isDerived_of_factor hpos room) tokens parsed h

end Abacus
