import Abacus.Proofs.Grammar.Acceptance
import Abacus.Proofs.Grammar.Refusals

/-!
# Tokens that cross a limit

There are two ways to be too deep.  A group or a minus sign begins where as many of them as the
limit allows are open already; this is known at its first token.  Or an operation has an operand as
deep as the limit allows; this is known when all operands have been read, and still it is the
operator that is complained of.

What is open at a place is said by the tokens before it: some of them are complete left sides, and
the others are the opening parentheses and the minus signs that wait for the operand there.

## Main definitions

* `ChainOf` — expressions are chains of terms, and terms are chains of factors.
* `Begins level before n` — behind the tokens a phrase of the level begins, inside of `n` groups and
  minus signs.
* `Joins` — a token is an operator or a minus sign whose operands are complete.
* `Crosses` — a token crosses the limit.

## Main results

* `Begins.exists_derives` — what begins can be completed, and nests by so much deeper.
* `Begins.unique` — **the tokens before a place say how many are open around it.**
* `deepens_factor`, `deepens_expression` — **a rule is too deep only where the limit is crossed.**
* `Crosses.limit_lt_length` — it takes more tokens than the limit to cross it.
-/

namespace Abacus

/-! ### Phrases that begin -/

/-- Phrases of one category are chains of operands of another, joined by the operators of a
level. -/
inductive ChainOf : Level → (Operator → Bool) → Level → Prop
  | terms : ChainOf .expression Operator.joinsTerms .term
  | factors : ChainOf .term Operator.joinsFactors .factor

/-- `Begins level before n` says that behind the tokens `before` a phrase of the level begins, and
that `n` groups and minus signs are open around it. -/
inductive Begins : Level → List Token → Nat → Prop
  | start : Begins .expression [] 0
  | first {category operand : Level} {ops : Operator → Bool} {before : List Token} {n : Nat}
      (hchain : ChainOf category ops operand) (h : Begins category before n) :
      Begins operand before n
  | next {category operand : Level} {ops : Operator → Bool} {before ls : List Token} {l : Expr}
      {m n : Nat} {op : Operator} (hchain : ChainOf category ops operand) (hop : ops op = true)
      (h : Begins category before n) (hl : Derives category ls l m) :
      Begins operand (before ++ (ls ++ [op.token])) n
  | minus {before : List Token} {n : Nat} (h : Begins .factor before n) :
      Begins .factor (before ++ [.minus]) (n + 1)
  | group {before : List Token} {n : Nat} (h : Begins .factor before n) :
      Begins .expression (before ++ [.openParen]) (n + 1)

section ChainOf

variable {category operand : Level} {ops : Operator → Bool}

/-- A single operand is a chain. -/
theorem ChainOf.derives_of (hchain : ChainOf category ops operand) {ts : List Token} {e : Expr}
    {n : Nat} (h : Derives operand ts e n) : Derives category ts e n := by
  cases hchain with
  | terms => exact .ofTerm h
  | factors => exact .ofFactor h

/-- A chain goes on with an operator and an operand. -/
theorem ChainOf.derives (hchain : ChainOf category ops operand) {ls rs : List Token} {l r : Expr}
    {m n : Nat} {op : Operator} (hop : ops op = true) (hl : Derives category ls l m)
    (hr : Derives operand rs r n) :
    Derives category (ls ++ op.token :: rs) (.operation l op r) (max m n) := by
  cases hchain with
  | terms => exact .sum (Operator.joinsTerms_iff.mp hop) hl hr
  | factors => exact .product (Operator.joinsFactors_iff.mp hop) hl hr

end ChainOf

section Begins

variable {level level' : Level} {before : List Token} {n n' : Nat}

/-- What is open around a place has its token before it. -/
theorem Begins.le_length (h : Begins level before n) : n ≤ before.length := by
  induction h with
  | start => exact Nat.le_refl _
  | first _ _ ih => exact ih
  | next _ _ _ _ ih => exact Nat.le_trans ih (by simp)
  | minus _ ih => simpa using ih
  | group _ ih => simpa using ih

/-- **What begins can be completed** to an expression by as many closing parentheses as are missing,
and nests by what is open deeper than alone, if it nests no less than the left sides before it. -/
theorem Begins.exists_derives (h : Begins level before n) :
    ∃ groups least, (Place.awaiting 0).after? before = some (.awaiting groups) ∧
      ∀ {ts : List Token} {e : Expr} {m : Nat}, least ≤ m → Derives level ts e m →
        ∃ e', Derives .expression (before ++ (ts ++ List.replicate groups .closeParen)) e'
          (n + m) := by
  -- Each step of the beginning wraps what is added later: a minus and a group cost one level, and a
  -- group has a parenthesis to close at the end.
  induction h with
  | start =>
    refine ⟨0, 0, rfl, fun {ts e m} _ h => ⟨e, ?_⟩⟩
    simpa using h
  | first hchain _ ih =>
    obtain ⟨groups, least, hplace, ih⟩ := ih
    exact ⟨groups, least, hplace, fun hm h => ih hm (hchain.derives_of h)⟩
  | @next category operand ops before ls l k n op hchain hop _ hl ih =>
    obtain ⟨groups, least, hplace, ih⟩ := ih
    -- The left operand may nest deeper than what is added, hence the larger bound.
    refine ⟨groups, max least k, ?_, fun {ts e m} hm h => ?_⟩
    · simp [Place.after?_append, Place.after?_cons, hplace, after?_of_derives hl]
    · have hjoined := hchain.derives hop hl h
      rw [Nat.max_eq_right (by omega)] at hjoined
      obtain ⟨e', h'⟩ := ih (by omega) hjoined
      exact ⟨e', by simpa using h'⟩
  | @minus before n _ ih =>
    obtain ⟨groups, least, hplace, ih⟩ := ih
    refine ⟨groups, least, ?_, fun {ts e m} hm h => ?_⟩
    · rw [Place.after?_append, hplace]
      rfl
    · obtain ⟨e', h'⟩ := ih (Nat.le_succ_of_le hm) (.minus h)
      rw [Nat.add_assoc, Nat.add_comm 1 m]
      exact ⟨e', by simpa using h'⟩
  | @group before n _ ih =>
    obtain ⟨groups, least, hplace, ih⟩ := ih
    refine ⟨groups + 1, least, ?_, fun {ts e m} hm h => ?_⟩
    · rw [Place.after?_append, hplace]
      rfl
    · obtain ⟨e', h'⟩ := ih (Nat.le_succ_of_le hm) (.group h)
      rw [Nat.add_assoc, Nat.add_comm 1 m]
      exact ⟨e', by simpa [List.replicate_succ] using h'⟩

/-- Signs before a number nest as often as there are signs. -/
theorem exists_derives_signs (level : Level) (m : Nat) :
    ∃ e, Derives level (List.replicate m .minus ++ [.number (.integer 0)]) e m := by
  have hfactor : ∃ e, Derives .factor (List.replicate m .minus ++ [.number (.integer 0)]) e m := by
    induction m with
    | zero => exact ⟨_, .number _⟩
    | succ m ih =>
      obtain ⟨e, h⟩ := ih
      exact ⟨_, .minus h⟩
  obtain ⟨e, h⟩ := hfactor
  cases level with
  | expression => exact ⟨e, .ofTerm (.ofFactor h)⟩
  | term => exact ⟨e, .ofFactor h⟩
  | factor => exact ⟨e, h⟩

/-- **The tokens before a place say how many groups and minus signs are open around it.**  With
enough signs behind them the whole nests by this number deeper than the signs do, and the nesting of
an expression is one number. -/
theorem Begins.unique (h : Begins level before n) (h' : Begins level' before n') : n = n' := by
  obtain ⟨groups, least, hplace, hall⟩ := h.exists_derives
  obtain ⟨groups', least', hplace', hall'⟩ := h'.exists_derives
  obtain rfl : groups = groups' :=
    Place.awaiting.inj (Option.some.inj (hplace.symm.trans hplace'))
  obtain ⟨e, he⟩ := exists_derives_signs level (max least least')
  obtain ⟨e', he'⟩ := exists_derives_signs level' (max least least')
  obtain ⟨_, hwhole⟩ := hall (Nat.le_max_left ..) he
  obtain ⟨_, hwhole'⟩ := hall' (Nat.le_max_right ..) he'
  exact Nat.add_right_cancel (nesting_eq_of_derives hwhole hwhole')

end Begins

/-! ### Tokens that cross the limit -/

/-- An operand of the level does not go on with the tokens: a term ends where no operator follows
that joins factors, and a factor ends by itself. -/
def Level.EndsBefore : Level → List Token → Prop
  | factor, _ => True
  | term, after => ∀ token ∈ after.head?, Operator.ofTokenAt? Operator.joinsFactors token = none
  | expression, after => ∀ token ∈ after.head?, Operator.ofToken? token = none

/-- `Joins before token after operands e n` says that the token between `before` and `after` is an
operator with an operand on each side, or a minus sign with one behind it; that these operands are
complete; that `e` is the tree it makes of them; and that `n` groups and minus signs stand around
their innermost factor. -/
inductive Joins : List Token → Token → List Token → List Expr → Expr → Nat → Prop
  | operator {category operand : Level} {ops : Operator → Bool} {before ls rs after : List Token}
      {l r : Expr} {k m n : Nat} {op : Operator} (hchain : ChainOf category ops operand)
      (hop : ops op = true) (hbefore : Begins category before k) (hl : Derives category ls l m)
      (hr : Derives operand rs r n) (hafter : operand.EndsBefore after) :
      Joins (before ++ ls) op.token (rs ++ after) [l, r] (.operation l op r) (k + max m n)
  | minus {before ts after : List Token} {e : Expr} {k n : Nat} (hbefore : Begins .factor before k)
      (h : Derives .factor ts e n) : Joins before .minus (ts ++ after) [e] e.negated (k + (n + 1))

/-- `Crosses limit before token after` says that the token between `before` and `after` crosses the
limit. -/
inductive Crosses (limit : Nat) (before : List Token) (token : Token) (after : List Token) : Prop
  /-- A group or a minus sign begins inside of as many of them as may be open. -/
  | nesting (htoken : token = .openParen ∨ token = .minus) (hbefore : Begins .factor before limit)
  /-- The operands are within the limits, and the deepest of them is as deep as may be. -/
  | depth {operands : List Expr} {e : Expr} {n : Nat}
      (hjoins : Joins before token after operands e n) (hnesting : n ≤ limit)
      (hwithin : ∀ operand ∈ operands, operand.depth ≤ limit)
      (hdeepest : ∃ operand ∈ operands, operand.depth = limit) (hdepth : e.depth = limit + 1)

/-! ### Numbers of tokens -/

/-- A minus sign adds a level at most. -/
theorem Expr.depth_negated_le (e : Expr) : e.negated.depth ≤ e.depth + 1 := by
  cases e <;> simp [negated]

/-- The tree of derived tokens has no more levels than there are tokens. -/
theorem Derives.depth_le_length {level : Level} {ts : List Token} {e : Expr} {n : Nat}
    (h : Derives level ts e n) : e.depth ≤ ts.length := by
  induction h with
  | ofTerm _ ih => exact ih
  | ofFactor _ ih => exact ih
  | sum _ _ _ ihl ihr => simp; omega
  | product _ _ _ ihl ihr => simp; omega
  | number value => exact Nat.le_refl _
  | name name => exact Nat.le_refl _
  | group _ ih => simp; omega
  | @minus ts e n _ ih =>
    have hle := e.depth_negated_le
    simp; omega

/-- **It takes more tokens than the limit to cross it.** -/
theorem Crosses.limit_lt_length {limit : Nat} {before after : List Token} {token : Token}
    (h : Crosses limit before token after) : limit < (before ++ token :: after).length := by
  cases h with
  | nesting _ hbefore =>
    -- Every level entered took a token.
    have hle := hbefore.le_length
    simp; omega
  | depth hjoins _ _ _ hdepth =>
    cases hjoins with
    | operator hchain hop _ hl hr _ =>
      -- And every level of the tree that would be built takes one, too.
      have hle := (hchain.derives hop hl hr).depth_le_length
      rw [hdepth] at hle
      simp at hle ⊢; omega
    | minus _ hderives =>
      have hle := hderives.minus.depth_le_length
      rw [hdepth] at hle
      simp at hle ⊢; omega

/-! ### Rules that are too deep -/

/-- One of the tokens to come behind `before` crosses the limit, and it stands at the position. -/
def CrossesAt (limit : Nat) (before : List Token) (tokens : List Located) (position : Nat) : Prop :=
  ∃ lts next rest, tokens = lts ++ next :: rest ∧ next.position = position ∧
    Crosses limit (before ++ lts.map Located.token) next.token (rest.map Located.token)

/-- A rule for a category, with room for what is not open yet, is too deep only where a token
crosses the limit. -/
def Rule.Deepens (limit room : Nat) (level : Level) (rule : Rule) : Prop :=
  ∀ (before : List Token) (n : Nat) (tokens : List Located) (limit' position : Nat),
    Begins level before n → n + room = limit →
    rule tokens = .error (.tooDeep limit' position) →
    limit' = limit ∧ CrossesAt limit before tokens position

variable {limit limit' room position k n : Nat} {stop : Stop} {before : List Token}
  {tokens lts : List Located} {next : Located}

/-- The token that comes next may cross the limit itself. -/
theorem CrossesAt.head (h : Crosses limit before next.token (tokens.map Located.token)) :
    CrossesAt limit before (next :: tokens) next.position :=
  ⟨[], next, tokens, rfl, rfl, by simpa using h⟩

/-- What crosses the limit behind other tokens crosses it with them in front. -/
theorem CrossesAt.append
    (h : CrossesAt limit (before ++ lts.map Located.token) tokens position) :
    CrossesAt limit before (lts ++ tokens) position := by
  obtain ⟨lts', next, rest, rfl, hposition, hcrosses⟩ := h
  refine ⟨lts ++ lts', next, rest, by simp, hposition, ?_⟩
  rw [List.map_append, ← List.append_assoc]
  exact hcrosses

/-- What stops the tokens is not that they are too deep. -/
theorem resolve_ne_tooDeep {α : Type} {atEnding : Nat → Except Error α}
    (h : ∀ p, atEnding p ≠ .error (.tooDeep limit position)) :
    stop.resolve atEnding ≠ .error (.tooDeep limit position) := by
  cases stop with
  | ending p => exact h p
  | fault error => exact nofun

/-! ### Chains that are too deep -/

section Chain

variable {category operandCategory : Level} {ops : Operator → Bool} {operand : Rule}

/-- Two sides that are within the limit and cannot be joined make a deeper tree. -/
theorem eq_tooDeep_of_join {m : Nat} {left : Parsed n} {right : Parsed m} {op : Operator}
    {hlt : m < n} {error : Error} (h : left.join limit op position right hlt = .error error) :
    error = .tooDeep limit position ∧ limit < max left.depth right.depth + 1 := by
  unfold Parsed.join at h
  dsimp only at h
  split at h
  · next hlimit => exact ⟨(Except.error.inj h).symm, hlimit⟩
  · cases h

/-- Where two sides cannot be joined, the operator crosses the limit. -/
theorem crosses_of_join (hchain : ChainOf category ops operandCategory)
    (hbefore : Begins category before k) (hroom : k + room = limit) {op : Operator}
    (hop : ops op = true) {m : Nat} {left : Parsed n} {right : Parsed m}
    (hleft : left.IsDerived limit room category (lts ++ left.rest))
    (hright : right.IsDerived limit room operandCategory tokens)
    (hends : operandCategory.EndsBefore (right.rest.map Located.token))
    (hdeep : limit < max left.depth right.depth + 1) :
    Crosses limit (before ++ lts.map Located.token) op.token (tokens.map Located.token) := by
  obtain ⟨ls, nl, hls, hl, hnl, hdl, hliml⟩ := hleft
  obtain ⟨rs, nr, rfl, hr, hnr, hdr, hlimr⟩ := hright
  obtain rfl : lts = ls := List.append_cancel_right hls
  -- The operands are within the limit and the operation is not, so one of them is at it.
  have hmax : max left.expr.depth right.expr.depth = limit := by omega
  have hjoins := Joins.operator hchain hop hbefore hl hr hends
  rw [← List.map_append] at hjoins
  refine .depth hjoins (by omega) ?_ ?_ (by rw [Expr.depth_operation, hmax])
  · simp; omega
  · rcases Nat.le_total left.expr.depth right.expr.depth with hle | hle
    · exact ⟨right.expr, by simp, by omega⟩
    · exact ⟨left.expr, by simp, by omega⟩

/-- **A chain is too deep in an operand or at an operator.** -/
theorem crossesAt_of_extend (hchain : ChainOf category ops operandCategory)
    (hbefore : Begins category before k) (hroom : k + room = limit)
    (hderived : ∀ (tokens : List Located) (parsed : Parsed tokens.length),
      operand tokens = .ok parsed → parsed.IsDerived limit room operandCategory tokens)
    (hends : ∀ (tokens : List Located) (parsed : Parsed tokens.length),
      operand tokens = .ok parsed → operandCategory.EndsBefore (parsed.rest.map Located.token))
    (hdeepens : operand.Deepens limit room operandCategory) {left : Parsed n}
    (hleft : left.IsDerived limit room category tokens)
    (h : Rule.extend limit stop ops operand left = .error (.tooDeep limit' position)) :
    limit' = limit ∧ CrossesAt limit before tokens position := by
  -- every operator takes at least one token, so the tokens left grow fewer
  generalize hk : left.rest.length = remaining
  induction remaining using Nat.strongRecOn generalizing left with
  | ind remaining ih =>
    cases hrest : left.rest with
    | nil =>
      rw [Rule.extend_of_nil hrest] at h
      exact absurd h (resolve_ne_tooDeep nofun)
    | cons next tokens' =>
      cases htoken : Operator.ofTokenAt? ops next.token with
      | none => rw [Rule.extend_of_none hrest htoken] at h; cases h
      | some op =>
        rw [Rule.extend_of_some hrest htoken] at h
        obtain ⟨hnext, hop⟩ := Operator.of_ofTokenAt?_eq_some htoken
        have hderivedl := hleft
        obtain ⟨lts, m, htokens, hl, -⟩ := hderivedl
        rw [hrest] at htokens
        obtain hright | ⟨right, hright, h⟩ := Except.bind_eq_error_iff.mp h
        · -- the operand begins behind the operator, with as much room
          have hbegins := Begins.next hchain hop hbefore hl
          rw [← hnext, ← List.map_singleton, ← List.map_append] at hbegins
          obtain ⟨hlimit, hcrosses⟩ := hdeepens _ _ _ _ _ hbegins hroom hright
          rw [htokens, List.append_cons]
          exact ⟨hlimit, hcrosses.append⟩
        · obtain hjoin | ⟨joined, hjoin, h⟩ := Except.bind_eq_error_iff.mp h
          · obtain ⟨herror, hdeep⟩ := eq_tooDeep_of_join hjoin
            cases herror
            have hleft' : left.IsDerived limit room category (lts ++ left.rest) := by
              rw [hrest, ← htokens]
              exact hleft
            have hcrosses := crosses_of_join hchain hbefore hroom hop hleft'
              (hderived tokens' right hright) (hends tokens' right hright) hdeep
            rw [htokens]
            rw [← hnext] at hcrosses
            exact ⟨rfl, lts, next, tokens', rfl, rfl, hcrosses⟩
          · have hjoined := isDerived_join (hchain.derives hop) hnext hrest hleft
              (hderived tokens' right hright) hjoin
            have hlt : joined.1.rest.length < remaining := by
              have := joined.2
              rw [← hk, hrest, List.length_cons]
              omega
            exact ih _ hlt hjoined h rfl

theorem Rule.Deepens.chain (hchain : ChainOf category ops operandCategory)
    (hderived : ∀ (tokens : List Located) (parsed : Parsed tokens.length),
      operand tokens = .ok parsed → parsed.IsDerived limit room operandCategory tokens)
    (hends : ∀ (tokens : List Located) (parsed : Parsed tokens.length),
      operand tokens = .ok parsed → operandCategory.EndsBefore (parsed.rest.map Located.token))
    (hdeepens : operand.Deepens limit room operandCategory) :
    (Rule.chain limit stop ops operand).Deepens limit room category := by
  intro before n tokens limit' position hbefore hroom h
  obtain hoperand | ⟨left, hleft, h⟩ := Except.bind_eq_error_iff.mp h
  · exact hdeepens _ _ _ _ _ (.first hchain hbefore) hroom hoperand
  · have hderivedl := (hderived tokens left hleft).imp hchain.derives_of
    exact crossesAt_of_extend hchain hbefore hroom hderived hends hdeepens hderivedl h

end Chain

/-- A term that has been read ends where no operator follows that joins factors. -/
theorem endsBefore_of_term {parsed : Parsed tokens.length}
    (h : Rule.term limit stop room tokens = .ok parsed) :
    Level.term.EndsBefore (parsed.rest.map Located.token) := by
  have hends := endsChain_of_chain h
  intro token htoken
  cases hrest : parsed.rest with
  | nil => rw [hrest] at htoken; cases htoken
  | cons next rest =>
    rw [hrest] at hends htoken
    obtain rfl := Option.some.inj htoken
    exact hends

/-- An expression is too deep as the factors in it are. -/
theorem Rule.Deepens.expression (hpos : 0 < limit)
    (hfactor : (Rule.factor limit stop room).Deepens limit room .factor) :
    (Rule.expression limit stop room).Deepens limit room .expression := by
  have hderived : ∀ (tokens : List Located) (parsed : Parsed tokens.length),
      Rule.factor limit stop room tokens = .ok parsed → parsed.IsDerived limit room .factor tokens :=
    isDerived_of_factor hpos room
  have hterm : (Rule.term limit stop room).Deepens limit room .term :=
    hfactor.chain .factors hderived fun _ _ _ => trivial
  have hderivedTerm : ∀ (tokens : List Located) (parsed : Parsed tokens.length),
      Rule.term limit stop room tokens = .ok parsed → parsed.IsDerived limit room .term tokens :=
    isDerived_chain Derives.ofFactor
      (fun hop => Derives.product (Operator.joinsFactors_iff.mp hop)) hderived
  exact hterm.chain .terms hderivedTerm fun _ _ => endsBefore_of_term

/-! ### Factors that are too deep -/

/-- A factor with no other factor in it is never too deep. -/
theorem factor_ne_tooDeep (hminus : next.token ≠ .minus) (hopen : next.token ≠ .openParen) :
    Rule.factor limit stop room (next :: tokens) ≠ .error (.tooDeep limit' position) := by
  intro h
  cases hnext : next.token with
  | number value => rw [Rule.factor_number hnext] at h; cases h
  | identifier name => rw [Rule.factor_identifier hnext] at h; cases h
  | minus => exact hminus hnext
  | openParen => exact hopen hnext
  | _ =>
    rw [Rule.factor_illegal (by simp [hnext]) (by simp [hnext]) hminus hopen] at h
    cases h

/-- A minus sign makes a factor within the limit too deep by one level. -/
theorem eq_tooDeep_of_negate {e : Expr} {rest : List Located} {hlt : rest.length < n}
    {error : Error}
    (h : Parsed.negate limit position ⟨e, e.depth, rest, hlt⟩ = .error error)
    (hlimit : e.depth ≤ limit) :
    error = .tooDeep limit position ∧ e.depth = limit ∧ e.negated.depth = limit + 1 := by
  by_cases hnegated : e.negated.depth ≤ limit
  · rw [negate_of_le hnegated] at h
    cases h
  · have hdeep : limit < e.negated.depth := Nat.not_le.mp hnegated
    have hle := e.depth_negated_le
    rw [negate_tooDeep hlimit hdeep] at h
    exact ⟨(Except.error.inj h).symm, by omega, by omega⟩

/-- Where a minus sign makes its factor too deep, the sign crosses the limit. -/
theorem crosses_of_negate (hbefore : Begins .factor before k) (hroom : k + (room + 1) = limit)
    {parsed : Parsed n} {error : Error} (hparsed : parsed.IsDerived limit room .factor tokens)
    (h : parsed.negate limit position = .error error) :
    error = .tooDeep limit position ∧
      Crosses limit before .minus (tokens.map Located.token) := by
  obtain ⟨e, depth, rest, hrest⟩ := parsed
  obtain ⟨lts, m, htokens, hderives, hm, hdepth, hlimit⟩ := hparsed
  dsimp only at htokens hderives hdepth hlimit
  subst htokens hdepth
  obtain ⟨rfl, hdeepest, hdeep⟩ := eq_tooDeep_of_negate h hlimit
  have hjoins := @Joins.minus _ _ (rest.map Located.token) _ _ _ hbefore hderives
  rw [← List.map_append] at hjoins
  have hwithin : ∀ operand ∈ [e], operand.depth ≤ limit := by simpa using hlimit
  exact ⟨rfl, .depth hjoins (by omega) hwithin ⟨e, by simp, hdeepest⟩ hdeep⟩

/-- What closes a group is never too deep. -/
theorem closeGroup_ne_tooDeep {parsed : Parsed n} :
    parsed.closeGroup stop ≠ .error (.tooDeep limit position) := by
  obtain ⟨e, depth, rest, hrest⟩ := parsed
  cases rest with
  | nil => exact resolve_ne_tooDeep nofun
  | cons next rest =>
    by_cases hclose : next.token = .closeParen
    · rw [Parsed.closeGroup_closeParen hclose]
      exact nofun
    · rw [Parsed.closeGroup_of_ne hclose]
      exact nofun

/-- **A factor is too deep only where a token crosses the limit.** -/
theorem deepens_factor (hpos : 0 < limit) :
    ∀ room, (Rule.factor limit stop room).Deepens limit room .factor := by
  intro room
  induction room with
  | zero =>
    intro before n tokens limit' position hbefore hroom h
    cases tokens with
    | nil =>
      rw [Rule.factor_nil] at h
      exact absurd h (resolve_ne_tooDeep nofun)
    | cons next tokens =>
      -- as many are open as may be, so it must not be a sign or a parenthesis
      by_cases htoken : next.token = .minus ∨ next.token = .openParen
      · rw [Rule.factor_zero htoken] at h
        cases h
        obtain rfl : n = limit := hroom
        exact ⟨rfl, .head (.nesting htoken.symm hbefore)⟩
      · rw [not_or] at htoken
        exact absurd h (factor_ne_tooDeep htoken.1 htoken.2)
  | succ room ih =>
    intro before n tokens limit' position hbefore hroom h
    cases tokens with
    | nil =>
      rw [Rule.factor_nil] at h
      exact absurd h (resolve_ne_tooDeep nofun)
    | cons next tokens =>
      by_cases hminus : next.token = .minus
      · rw [Rule.factor_minus hminus] at h
        obtain hinner | ⟨inner, hinner, h⟩ := Except.bind_eq_error_iff.mp h
        · have hbegins : Begins .factor (before ++ [next].map Located.token) (n + 1) := by
            rw [List.map_singleton, hminus]
            exact .minus hbefore
          obtain ⟨hlimit, hcrosses⟩ := ih _ _ _ _ _ hbegins (by omega) hinner
          exact ⟨hlimit, hcrosses.append⟩
        · obtain ⟨herror, hcrosses⟩ := crosses_of_negate hbefore hroom
            (isDerived_of_factor hpos room tokens inner hinner) (Except.map_eq_error_iff.mp h)
          cases herror
          exact ⟨rfl, .head (hminus ▸ hcrosses)⟩
      · by_cases hopen : next.token = .openParen
        · rw [Rule.factor_openParen hopen, Except.map_eq_error_iff] at h
          obtain hinner | ⟨inner, -, h⟩ := Except.bind_eq_error_iff.mp h
          · have hbegins : Begins .expression (before ++ [next].map Located.token) (n + 1) := by
              rw [List.map_singleton, hopen]
              exact .group hbefore
            obtain ⟨hlimit, hcrosses⟩ := ih.expression hpos _ _ _ _ _ hbegins (by omega) hinner
            exact ⟨hlimit, hcrosses.append⟩
          · exact absurd h closeGroup_ne_tooDeep
        · exact absurd h (factor_ne_tooDeep hminus hopen)

/-- **An expression is too deep only where a token crosses the limit.** -/
theorem deepens_expression (hpos : 0 < limit) (room : Nat) :
    (Rule.expression limit stop room).Deepens limit room .expression :=
  (deepens_factor hpos room).expression hpos

/-- An input that is too deep has a token that crosses the limit, at the position of the error. -/
theorem Input.crossesAt_of_parseWithin (hpos : 0 < limit) {input : Input}
    (h : input.parseWithin limit = .error (.tooDeep limit' position)) :
    limit' = limit ∧ CrossesAt limit [] input.tokens position := by
  obtain hexpression | ⟨parsed, -, hcomplete⟩ := Except.bind_eq_error_iff.mp h
  · exact deepens_expression hpos limit _ _ _ _ _ .start (Nat.zero_add limit) hexpression
  · unfold Parsed.complete at hcomplete
    split at hcomplete
    · exact absurd hcomplete (resolve_ne_tooDeep nofun)
    · cases hcomplete

end Abacus
