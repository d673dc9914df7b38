import Abacus.Proofs.Grammar.Derivation

/-!
# What can be derived is read

A rule that meets tokens which derive its category reads exactly these, provided that the limits
allow it, and complains of the depth otherwise.  For an expression and a term the tokens that follow
matter, since a chain goes on as long as operators of its level come; so these two are said to come
*to the state* of their chain behind the derived tokens, from where the chain goes on or ends.

## Main definitions

* `Level.rule` — the rule that reads a category.
* `EndsChain` — what follows does not continue a chain of a given level.
* `Level.Reaches` — a rule reads a tree and comes to the tokens behind it.

## Main results

* `reaches_of_derives` — **derived tokens are read as their tree**, within the limits.
* `tooDeep_of_derives` — **derived tokens past a limit are too deep**, and nothing else is wrong.
-/

namespace Abacus

/-- The rule that reads a syntactic category. -/
def Level.rule (limit : Nat) (stop : Stop) (room : Nat) : Level → Rule
  | expression => Rule.expression limit stop room
  | term => Rule.term limit stop room
  | factor => Rule.factor limit stop room

/-- The tokens to come do not continue a chain of the given level: there are none, and no fault
either, or the next one is no operator of the level. -/
def EndsChain (stop : Stop) (level : Operator → Bool) : List Located → Prop
  | [] => ∃ position, stop = .ending position
  | next :: _ => Operator.ofTokenAt? level next.token = none

theorem extend_of_endsChain {limit : Nat} {stop : Stop} {level : Operator → Bool} {operand : Rule}
    {n : Nat} {left : Parsed n} (h : EndsChain stop level left.rest) :
    Rule.extend limit stop level operand left = .ok left := by
  cases hrest : left.rest with
  | nil =>
    rw [hrest] at h
    obtain ⟨position, hstop⟩ := h
    rw [Rule.extend_of_nil hrest, hstop]
    rfl
  | cons next tokens =>
    rw [hrest] at h
    exact Rule.extend_of_none hrest h

theorem endsChain_cons {stop : Stop} {level : Operator → Bool} {next : Located}
    {tokens : List Located} (h : Operator.ofTokenAt? level next.token = none) :
    EndsChain stop level (next :: tokens) := h

/-- An operator of one level ends a chain of another. -/
theorem endsChain_operator {stop : Stop} {level : Operator → Bool} {op : Operator} {next : Located}
    {tokens : List Located} (hnext : next.token = op.token) (h : level op = false) :
    EndsChain stop level (next :: tokens) := by
  refine endsChain_cons ?_
  rw [hnext]
  exact Operator.ofTokenAt?_token_of_false h

theorem endsChain_closeParen {stop : Stop} {level : Operator → Bool} {next : Located}
    {tokens : List Located} (hnext : next.token = .closeParen) :
    EndsChain stop level (next :: tokens) := by
  refine endsChain_cons ?_
  rw [hnext]
  rfl

/-! ### One operator of a chain -/

section Chain

variable {limit : Nat} (stop : Stop) {level : Operator → Bool} {operand : Rule}
variable {n : Nat} {next : Located} {tokens rest : List Located} {op : Operator} {l r : Expr}
variable (hl : (next :: tokens).length < n)

/-- Within the limit a chain takes an operator and the operand behind it. -/
theorem extend_operator (hnext : next.token = op.token) (hop : level op = true)
    {hr : rest.length < tokens.length} (hoperand : operand tokens = .ok ⟨r, r.depth, rest, hr⟩)
    (hdepth : (Expr.operation l op r).depth ≤ limit) :
    ∃ h : rest.length < n, Rule.extend limit stop level operand ⟨l, l.depth, next :: tokens, hl⟩
      = Rule.extend limit stop level operand
          ⟨.operation l op r, (Expr.operation l op r).depth, rest, h⟩ := by
  have htoken : Operator.ofTokenAt? level next.token = some op := by
    rw [hnext]; exact Operator.ofTokenAt?_token hop
  refine ⟨by simp only [List.length_cons] at hl; omega, ?_⟩
  rw [Rule.extend_of_some rfl htoken, hoperand]
  have hmax : ¬ limit < max l.depth r.depth + 1 := Nat.not_lt.mpr hdepth
  simp only [Except.bind, Parsed.join, if_neg hmax]
  rfl

/-- An operation past the limit is too deep. -/
theorem extend_operator_tooDeep (hnext : next.token = op.token) (hop : level op = true)
    {hr : rest.length < tokens.length} (hoperand : operand tokens = .ok ⟨r, r.depth, rest, hr⟩)
    (hdepth : limit < (Expr.operation l op r).depth) :
    Rule.extend limit stop level operand ⟨l, l.depth, next :: tokens, hl⟩
      = .error (.tooDeep limit next.position) := by
  have htoken : Operator.ofTokenAt? level next.token = some op := by
    rw [hnext]; exact Operator.ofTokenAt?_token hop
  rw [Rule.extend_of_some rfl htoken, hoperand]
  have hmax : limit < max l.depth r.depth + 1 := hdepth
  simp only [Except.bind, Parsed.join, if_pos hmax]

/-- An operand that is at fault is the fault of the chain. -/
theorem extend_operator_error (hnext : next.token = op.token) (hop : level op = true)
    {error : Error} (hoperand : operand tokens = .error error) :
    Rule.extend limit stop level operand ⟨l, l.depth, next :: tokens, hl⟩
      = .error error := by
  have htoken : Operator.ofTokenAt? level next.token = some op := by
    rw [hnext]; exact Operator.ofTokenAt?_token hop
  rw [Rule.extend_of_some rfl htoken, hoperand]
  rfl

end Chain

/-! ### A minus sign and a group -/

section Factor

variable {limit : Nat} {stop : Stop} {n position : Nat} {e : Expr} {rest : List Located}
variable {hr : rest.length < n}

theorem negate_of_le (h : e.negated.depth ≤ limit) :
    Parsed.negate limit position ⟨e, e.depth, rest, hr⟩
      = .ok ⟨e.negated, e.negated.depth, rest, hr⟩ := by
  cases e with
  | constant value => rfl
  | reference name =>
    have hmax : ¬ limit < (Expr.reference name).depth + 1 := Nat.not_lt.mpr h
    simp only [Parsed.negate, if_neg hmax]
    rfl
  | operation l op r =>
    have hdepth : (Expr.operation l op r).negated.depth = (Expr.operation l op r).depth + 1 := by
      simp [Expr.negated]
    have hmax : ¬ limit < (Expr.operation l op r).depth + 1 := Nat.not_lt.mpr (hdepth ▸ h)
    simp only [Parsed.negate, if_neg hmax, hdepth]
    rfl

/-- Where a minus sign passes the limit, it stands before no constant. -/
theorem negate_tooDeep (he : e.depth ≤ limit) (h : limit < e.negated.depth) :
    Parsed.negate limit position ⟨e, e.depth, rest, hr⟩
      = .error (.tooDeep limit position) := by
  cases e with
  | constant value => exact absurd he (Nat.not_le.mpr h)
  | reference name =>
    have hmax : limit < (Expr.reference name).depth + 1 := h
    simp only [Parsed.negate, if_pos hmax]
  | operation l op r =>
    have hmax : limit < (Expr.operation l op r).depth + 1 := by
      simpa [Expr.negated] using h
    simp only [Parsed.negate, if_pos hmax]

end Factor

/-! ### Errors of what a rule begins with -/

section Errors

variable {limit room : Nat} {stop : Stop} {next : Located} {tokens : List Located} {error : Error}

theorem term_error (h : Rule.factor limit stop room tokens = .error error) :
    Rule.term limit stop room tokens = .error error := by
  rw [Rule.term, Rule.termOver, Rule.chain, h]
  rfl

theorem expression_error (h : Rule.term limit stop room tokens = .error error) :
    Rule.expression limit stop room tokens = .error error := by
  rw [Rule.term] at h
  rw [Rule.expression, Rule.expressionOver, Rule.chain, h]
  rfl

theorem factor_minus_error (hnext : next.token = .minus)
    (h : Rule.factor limit stop room tokens = .error error) :
    Rule.factor limit stop (room + 1) (next :: tokens) = .error error := by
  rw [Rule.factor_minus hnext, h]
  rfl

theorem factor_group_error (hnext : next.token = .openParen)
    (h : Rule.expression limit stop room tokens = .error error) :
    Rule.factor limit stop (room + 1) (next :: tokens) = .error error := by
  rw [Rule.expression] at h
  rw [Rule.factor_openParen hnext, Rule.groupOver, h]
  rfl

end Errors

/-! ### Located tokens of an operation and of a group -/

theorem exists_located_operation {lts : List Located} {ls rs : List Token} {op : Operator}
    (h : lts.map Located.token = ls ++ op.token :: rs) :
    ∃ lls next lrs, lts = lls ++ next :: lrs ∧ lls.map Located.token = ls ∧
      next.token = op.token ∧ lrs.map Located.token = rs := by
  obtain ⟨lls, lrs', rfl, hls, hrest⟩ := List.map_eq_append_iff.mp h
  obtain ⟨next, lrs, rfl, hnext, hrs⟩ := List.map_eq_cons_iff.mp hrest
  exact ⟨lls, next, lrs, rfl, hls, hnext, hrs⟩

theorem exists_located_group {lts : List Located} {ts : List Token}
    (h : lts.map Located.token = .openParen :: (ts ++ [.closeParen])) :
    ∃ opening les closing, lts = opening :: (les ++ [closing]) ∧ opening.token = .openParen ∧
      les.map Located.token = ts ∧ closing.token = .closeParen := by
  obtain ⟨opening, lts', rfl, hopening, hrest⟩ := List.map_eq_cons_iff.mp h
  obtain ⟨les, lclose, rfl, hes, hclose⟩ := List.map_eq_append_iff.mp hrest
  obtain ⟨closing, lnil, rfl, hclosing, hnil⟩ := List.map_eq_cons_iff.mp hclose
  obtain rfl := List.map_eq_nil_iff.mp hnil
  exact ⟨opening, les, closing, rfl, hopening, hes, hclosing⟩

theorem exists_located_single {lts : List Located} {token : Token}
    (h : lts.map Located.token = [token]) : ∃ next, lts = [next] ∧ next.token = token := by
  obtain ⟨next, lnil, rfl, hnext, hnil⟩ := List.map_eq_cons_iff.mp h
  obtain rfl := List.map_eq_nil_iff.mp hnil
  exact ⟨next, rfl, hnext⟩

/-! ### Derived tokens -/

/-- A rule reads `e` and comes to the tokens `rest` behind it.  An expression has to be followed by
no operator that joins factors, since its last term would take it. -/
def Level.Reaches (limit : Nat) (stop : Stop) (room : Nat) (tokens : List Located) (e : Expr)
    (rest : List Located) : Level → Prop
  | expression => EndsChain stop Operator.joinsFactors rest →
      ∃ h, Rule.expression limit stop room tokens
        = Rule.extend limit stop Operator.joinsTerms (Rule.term limit stop room)
            ⟨e, e.depth, rest, h⟩
  | term => ∃ h, Rule.term limit stop room tokens
      = Rule.extend limit stop Operator.joinsFactors (Rule.factor limit stop room)
          ⟨e, e.depth, rest, h⟩
  | factor => ∃ h, Rule.factor limit stop room tokens = .ok ⟨e, e.depth, rest, h⟩

/-- **Derived tokens are read as their tree.** -/
theorem reaches_of_derives {limit : Nat} (stop : Stop) {level : Level} {ts : List Token} {e : Expr}
    {n : Nat} (h : Derives level ts e n) :
    ∀ (room : Nat) (lts tokens rest : List Located), n ≤ room → e.depth ≤ limit →
      lts.map Located.token = ts → tokens = lts ++ rest →
      level.Reaches limit stop room tokens e rest := by
  induction h with
  | @ofTerm ts e n _ ih =>
    intro room lts tokens rest hroom hlimit hts htokens hends
    -- No operator of a product follows, so the first term is complete and the sum goes on.
    obtain ⟨hlt, hterm⟩ := ih room lts tokens rest hroom hlimit hts htokens
    refine ⟨hlt, ?_⟩
    rw [Rule.term] at hterm
    rw [Rule.expression, Rule.expressionOver, Rule.chain, hterm, extend_of_endsChain hends]
    rfl
  | @sum ls rs l r m n op hop _ _ ihl ihr =>
    intro room lts tokens rest hroom hlimit hts htokens hends
    obtain ⟨lls, next, lrs, rfl, hls, hnext, hrs⟩ := exists_located_operation hts
    have hdepth := hlimit
    rw [Expr.depth_operation] at hdepth
    have hfactors : op.joinsFactors = false := by rcases hop with rfl | rfl <;> rfl
    obtain ⟨hl, hleft⟩ := ihl room lls tokens (next :: (lrs ++ rest)) (by omega) (by omega) hls
      (by simp [htokens]) (endsChain_operator hnext hfactors)
    obtain ⟨hr, hright⟩ := ihr room lrs (lrs ++ rest) rest (by omega) (by omega) hrs rfl
    -- The right side is a whole term: its own chain ends where the sum goes on.
    rw [extend_of_endsChain hends] at hright
    obtain ⟨hlt, hextend⟩ :=
      extend_operator stop hl hnext (Operator.joinsTerms_iff.mpr hop) hright hlimit
    exact ⟨hlt, hleft.trans hextend⟩
  | @ofFactor ts e n _ ih =>
    intro room lts tokens rest hroom hlimit hts htokens
    obtain ⟨hlt, hfactor⟩ := ih room lts tokens rest hroom hlimit hts htokens
    refine ⟨hlt, ?_⟩
    rw [Rule.term, Rule.termOver, Rule.chain, hfactor]
    rfl
  | @product ls rs l r m n op hop _ _ ihl ihr =>
    intro room lts tokens rest hroom hlimit hts htokens
    obtain ⟨lls, next, lrs, rfl, hls, hnext, hrs⟩ := exists_located_operation hts
    have hdepth := hlimit
    rw [Expr.depth_operation] at hdepth
    obtain ⟨hl, hleft⟩ := ihl room lls tokens (next :: (lrs ++ rest)) (by omega) (by omega) hls
      (by simp [htokens])
    obtain ⟨hr, hright⟩ := ihr room lrs (lrs ++ rest) rest (by omega) (by omega) hrs rfl
    obtain ⟨hlt, hextend⟩ :=
      extend_operator stop hl hnext (Operator.joinsFactors_iff.mpr hop) hright hlimit
    exact ⟨hlt, hleft.trans hextend⟩
  | number value =>
    intro room lts tokens rest _ _ hts htokens
    obtain ⟨next, rfl, hnext⟩ := exists_located_single hts
    subst htokens
    exact ⟨_, Rule.factor_number hnext⟩
  | name name =>
    intro room lts tokens rest _ _ hts htokens
    obtain ⟨next, rfl, hnext⟩ := exists_located_single hts
    subst htokens
    exact ⟨_, Rule.factor_identifier hnext⟩
  | @minus ts e n _ ih =>
    intro room lts tokens rest hroom hlimit hts htokens
    obtain ⟨next, lts', rfl, hnext, hts'⟩ := List.map_eq_cons_iff.mp hts
    obtain ⟨room, rfl⟩ : ∃ room', room = room' + 1 := ⟨room - 1, by omega⟩
    obtain rfl : tokens = next :: (lts' ++ rest) := htokens
    obtain ⟨hlt, hfactor⟩ := ih room lts' (lts' ++ rest) rest (by omega)
      (Nat.le_trans e.depth_le_depth_negated hlimit) hts' rfl
    refine ⟨Nat.lt_succ_of_lt hlt, ?_⟩
    rw [Rule.factor_minus hnext, hfactor]
    simp only [Except.bind, negate_of_le hlimit]
    rfl
  | @group ts e n _ ih =>
    intro room lts tokens rest hroom hlimit hts htokens
    obtain ⟨next, les, close, rfl, hnext, hes, hclose⟩ := exists_located_group hts
    obtain ⟨room, rfl⟩ : ∃ room', room = room' + 1 := ⟨room - 1, by omega⟩
    obtain rfl : tokens = next :: (les ++ close :: rest) := by simpa using htokens
    -- The parenthesis ends the chains of both levels inside of the group.
    obtain ⟨hlt, hexpression⟩ := ih room les (les ++ close :: rest) (close :: rest) (by omega)
      hlimit hes rfl (endsChain_closeParen hclose)
    rw [extend_of_endsChain (endsChain_closeParen hclose), Rule.expression] at hexpression
    refine ⟨by simp only [List.length_cons] at hlt ⊢; omega, ?_⟩
    rw [Rule.factor_openParen hnext, Rule.groupOver, hexpression]
    simp only [Except.bind, Parsed.closeGroup_closeParen hclose]
    rfl

/-- **Derived tokens past a limit are too deep**, and nothing else is wrong with them. -/
theorem tooDeep_of_derives {limit : Nat} {stop : Stop} (hpos : 0 < limit) {level : Level}
    {ts : List Token} {e : Expr} {n : Nat} (h : Derives level ts e n) :
    ∀ (room : Nat) (lts tokens rest : List Located), room < n ∨ limit < e.depth →
      lts.map Located.token = ts → tokens = lts ++ rest →
      (level = .expression → EndsChain stop Operator.joinsFactors rest) →
      ∃ position, level.rule limit stop room tokens = .error (.tooDeep limit position) := by
  induction h with
  | @ofTerm ts e n _ ih =>
    intro room lts tokens rest hpast hts htokens _
    obtain ⟨position, hterm⟩ := ih room lts tokens rest hpast hts htokens nofun
    exact ⟨position, expression_error hterm⟩
  | @sum ls rs l r m n op hop hl hr ihl ihr =>
    intro room lts tokens rest hpast hts htokens hends
    obtain ⟨lls, next, lrs, rfl, hls, hnext, hrs⟩ := exists_located_operation hts
    have htokens' : tokens = lls ++ next :: (lrs ++ rest) := by simp [htokens]
    have hterms : op.joinsTerms = true := Operator.joinsTerms_iff.mpr hop
    have hfactors : op.joinsFactors = false := by rcases hop with rfl | rfl <;> rfl
    have hendsl : EndsChain stop Operator.joinsFactors (next :: (lrs ++ rest)) :=
      endsChain_operator hnext hfactors
    by_cases hleft : m ≤ room ∧ l.depth ≤ limit
    · obtain ⟨hlt, hchain⟩ :=
        reaches_of_derives stop hl room lls tokens _ hleft.1 hleft.2 hls htokens' hendsl
      by_cases hright : n ≤ room ∧ r.depth ≤ limit
      · -- both sides are within the limits, so it is the operation that is too deep
        obtain ⟨hrlt, hterm⟩ :=
          reaches_of_derives stop hr room lrs (lrs ++ rest) rest hright.1 hright.2 hrs rfl
        rw [extend_of_endsChain (hends rfl)] at hterm
        refine ⟨next.position,
          hchain.trans (extend_operator_tooDeep stop hlt hnext hterms hterm ?_)⟩
        omega
      · obtain ⟨position, hterm⟩ := ihr room lrs (lrs ++ rest) rest (by omega) hrs rfl nofun
        exact ⟨position, hchain.trans (extend_operator_error stop hlt hnext hterms hterm)⟩
    · exact ihl room lls tokens _ (by omega) hls htokens' fun _ => hendsl
  | @ofFactor ts e n _ ih =>
    intro room lts tokens rest hpast hts htokens _
    obtain ⟨position, hfactor⟩ := ih room lts tokens rest hpast hts htokens nofun
    exact ⟨position, term_error hfactor⟩
  | @product ls rs l r m n op hop hl hr ihl ihr =>
    intro room lts tokens rest hpast hts htokens _
    obtain ⟨lls, next, lrs, rfl, hls, hnext, hrs⟩ := exists_located_operation hts
    have htokens' : tokens = lls ++ next :: (lrs ++ rest) := by simp [htokens]
    have hfactors : op.joinsFactors = true := Operator.joinsFactors_iff.mpr hop
    by_cases hleft : m ≤ room ∧ l.depth ≤ limit
    · obtain ⟨hlt, hchain⟩ :=
        reaches_of_derives stop hl room lls tokens _ hleft.1 hleft.2 hls htokens'
      by_cases hright : n ≤ room ∧ r.depth ≤ limit
      · obtain ⟨hrlt, hfactor⟩ :=
          reaches_of_derives stop hr room lrs (lrs ++ rest) rest hright.1 hright.2 hrs rfl
        refine ⟨next.position,
          hchain.trans (extend_operator_tooDeep stop hlt hnext hfactors hfactor ?_)⟩
        omega
      · obtain ⟨position, hfactor⟩ := ihr room lrs (lrs ++ rest) rest (by omega) hrs rfl nofun
        exact ⟨position, hchain.trans (extend_operator_error stop hlt hnext hfactors hfactor)⟩
    · exact ihl room lls tokens _ (by omega) hls htokens' nofun
  | number value =>
    intro room lts tokens rest hpast
    simp at hpast
    omega
  | name name =>
    intro room lts tokens rest hpast
    simp at hpast
    omega
  | @minus ts e n he ih =>
    intro room lts tokens rest hpast hts htokens _
    obtain ⟨next, lts', rfl, hnext, hts'⟩ := List.map_eq_cons_iff.mp hts
    obtain rfl : tokens = next :: (lts' ++ rest) := htokens
    cases room with
    | zero => exact ⟨next.position, Rule.factor_zero (.inl hnext)⟩
    | succ room =>
      by_cases hinner : n ≤ room ∧ e.depth ≤ limit
      · obtain ⟨hlt, hfactor⟩ := reaches_of_derives stop he room lts' (lts' ++ rest) rest
          hinner.1 hinner.2 hts' rfl
        -- what is behind the sign is within the limits, so it is the product that is too deep
        refine ⟨next.position, ?_⟩
        rw [Level.rule, Rule.factor_minus hnext, hfactor]
        simp only [Except.bind]
        rw [negate_tooDeep hinner.2 (by omega)]
        rfl
      · obtain ⟨position, hfactor⟩ := ih room lts' (lts' ++ rest) rest (by omega) hts' rfl nofun
        exact ⟨position, factor_minus_error hnext hfactor⟩
  | @group ts e n he ih =>
    intro room lts tokens rest hpast hts htokens _
    obtain ⟨next, les, close, rfl, hnext, hes, hclose⟩ := exists_located_group hts
    obtain rfl : tokens = next :: (les ++ close :: rest) := by simpa using htokens
    cases room with
    -- without room a group is refused at its parenthesis, whatever is inside
    | zero => exact ⟨next.position, Rule.factor_zero (.inr hnext)⟩
    | succ room =>
      obtain ⟨position, hexpression⟩ := ih room les (les ++ close :: rest) (close :: rest)
        (by omega) hes rfl fun _ => endsChain_closeParen hclose
      exact ⟨position, factor_group_error hnext hexpression⟩

end Abacus
