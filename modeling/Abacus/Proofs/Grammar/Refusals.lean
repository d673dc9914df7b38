import Abacus.Proofs.Grammar.Completeness
import Abacus.Proofs.Grammar.Places
import Abacus.Proofs.Grammar.Soundness

/-!
# Refused tokens

A rule that fails, and neither for a fault of the text nor for a limit, fails at a token that leads
on from none of the places before it.  The place decides of what the complaint is.  So no token is
refused later than it can be known that no expression begins so, and none is refused that an
expression could go on with.

## Main definitions

* `Place.complaint` — of what a reader complains at a place where it cannot go on.
* `Refusal` — why tokens cannot be read from a place on.

## Main results

* `refuses_factor`, `refuses_expression` — **a rule that fails refuses the tokens**.
* `Input.refusal_of_parseWithin` — the same for a whole input.
-/

namespace Abacus

open Place (awaiting behind)

/-- What a reader complains of where it cannot go on with the next token. -/
def Place.complaint (next : Located) : Place → ParseError
  | awaiting _ => .illegalToken next.token next.position
  | behind 0 => .trailingTokens next.token next.position
  | behind (_ + 1) => .missingClosingParenthesis next.position

namespace Place

variable {next : Located} (place : Place)

@[simp] theorem position_complaint : (place.complaint next).position = next.position := by
  rcases place with groups | _ | groups <;> rfl

theorem complaint_eq_trailingTokens_iff :
    place.complaint next = .trailingTokens next.token next.position ↔ place = behind 0 := by
  rcases place with groups | _ | groups <;> simp [complaint]

theorem complaint_eq_missingClosingParenthesis_iff :
    place.complaint next = .missingClosingParenthesis next.position ↔
      ∃ groups, place = behind (groups + 1) := by
  rcases place with groups | _ | groups <;> simp [complaint]

theorem complaint_eq_illegalToken_iff :
    place.complaint next = .illegalToken next.token next.position ↔
      ∃ groups, place = awaiting groups := by
  rcases place with groups | _ | groups <;> simp [complaint]

end Place

/-- `Refusal stop place tokens error` says that the tokens cannot be read from the place on, for the
given reason. -/
inductive Refusal (stop : Stop) (place : Place) : List Located → Error → Prop
  /-- The tokens come to one that may not stand where it does. -/
  | token {before after : List Located} {next : Located} {place' : Place}
      (hplace : place.after? (before.map Located.token) = some place')
      (hnext : place'.next? next.token = none) :
      Refusal stop place (before ++ next :: after) (.parse (place'.complaint next))
  /-- The tokens end where no expression does. -/
  | ending {tokens : List Located} {position : Nat} {place' : Place}
      (hstop : stop = .ending position)
      (hplace : place.after? (tokens.map Located.token) = some place')
      (hopen : place' ≠ behind 0) :
      Refusal stop place tokens (.parse (place'.complaint ⟨.eof, position⟩))
  /-- The text is at fault behind the tokens. -/
  | fault {tokens : List Located} {error : LexError} (hstop : stop = .fault error) :
      Refusal stop place tokens (.lex error)
  /-- A limit is passed. -/
  | tooDeep {tokens : List Located} (limit position : Nat) :
      Refusal stop place tokens (.tooDeep limit position)

section

variable {limit room groups : Nat} {stop : Stop} {place place' : Place}
variable {tokens : List Located} {next : Located} {error : Error}

/-- What is refused behind other tokens is refused with them. -/
theorem Refusal.append (before : List Located) (h : Refusal stop place' tokens error)
    (hbefore : place.after? (before.map Located.token) = some place') :
    Refusal stop place (before ++ tokens) error := by
  -- Only where the place stands changes; a fault and a limit are refused wherever they are met.
  cases h with
  | token hplace hnext =>
    rw [← List.append_assoc]
    refine .token ?_ hnext
    rw [List.map_append]
    exact Place.after?_append_eq_some.mpr ⟨_, hbefore, hplace⟩
  | ending hstop hplace hopen =>
    refine .ending hstop ?_ hopen
    rw [List.map_append]
    exact Place.after?_append_eq_some.mpr ⟨_, hbefore, hplace⟩
  | fault hstop => exact .fault hstop
  | tooDeep limit position => exact .tooDeep limit position

theorem Refusal.cons (h : Refusal stop place' tokens error)
    (hnext : place.next? next.token = some place') :
    Refusal stop place (next :: tokens) error :=
  h.append [next] (Place.after?_cons_eq_some.mpr ⟨place', hnext, rfl⟩)

/-- A token may be refused at once. -/
theorem Refusal.head (hnext : place.next? next.token = none) :
    Refusal stop place (next :: tokens) (.parse (place.complaint next)) :=
  @Refusal.token _ _ [] _ _ _ rfl hnext

/-- A rule leads from before an operand to behind it. -/
def Rule.Leads (rule : Rule) : Prop :=
  ∀ (tokens : List Located) (parsed : Parsed tokens.length), rule tokens = .ok parsed →
    ∃ before, tokens = before ++ parsed.rest ∧
      ∀ groups, (awaiting groups).after? (before.map Located.token) = some (behind groups)

/-- A rule that fails does so for one of the reasons. -/
def Rule.Refuses (stop : Stop) (rule : Rule) : Prop :=
  ∀ (groups : Nat) (tokens : List Located) (error : Error), rule tokens = .error error →
    Refusal stop (awaiting groups) tokens error

/-- What reads derived tokens leads behind them. -/
theorem leads_of_isDerived {rule : Rule} {level : Level}
    (h : ∀ (tokens : List Located) (parsed : Parsed tokens.length), rule tokens = .ok parsed →
      parsed.IsDerived limit room level tokens) : rule.Leads := by
  intro tokens parsed hok
  obtain ⟨before, n, htokens, hderives, -⟩ := h tokens parsed hok
  exact ⟨before, htokens, after?_of_derives hderives⟩

/-! ### Chains -/

section Chain

variable {level : Operator → Bool} {operand : Rule} {n : Nat}

theorem refusal_of_join {op : Operator} {position m : Nat} {left : Parsed n} {right : Parsed m}
    {h : m < n} (hjoin : left.join limit op position right h = .error error) :
    Refusal stop place tokens error := by
  unfold Parsed.join at hjoin
  dsimp only at hjoin
  split at hjoin
  · obtain rfl := Except.error.inj hjoin
    exact .tooDeep limit position
  · cases hjoin

/-- A chain that does not go on fails behind the operand that it has. -/
theorem refusal_of_extend (hleads : operand.Leads) (hrefuses : operand.Refuses stop)
    {left : Parsed n} (h : Rule.extend limit stop level operand left = .error error) :
    Refusal stop (behind groups) left.rest error := by
  -- every operator takes at least one token, so the tokens left grow fewer
  generalize hk : left.rest.length = k
  induction k using Nat.strongRecOn generalizing left with
  | ind k ih =>
    cases hrest : left.rest with
    | nil =>
      rw [Rule.extend_of_nil hrest] at h
      cases hstop : stop with
      | ending position => rw [hstop] at h; cases h
      | fault fault => rw [hstop] at h; cases h; exact .fault rfl
    | cons next tokens =>
      cases htoken : Operator.ofTokenAt? level next.token with
      | none => rw [Rule.extend_of_none hrest htoken] at h; cases h
      | some op =>
        rw [Rule.extend_of_some hrest htoken] at h
        obtain ⟨hnext, -⟩ := Operator.of_ofTokenAt?_eq_some htoken
        have hawaiting : (behind groups).next? next.token = some (awaiting groups) := by
          rw [hnext, Place.next?_operator]
        refine Refusal.cons ?_ hawaiting
        obtain hright | ⟨right, hright, h⟩ := Except.bind_eq_error_iff.mp h
        · exact hrefuses groups tokens error hright
        · obtain hjoin | ⟨joined, hjoin, h⟩ := Except.bind_eq_error_iff.mp h
          · exact refusal_of_join hjoin
          · obtain ⟨before, htokens, hbehind⟩ := hleads tokens right hright
            have hlt : joined.1.rest.length < k := by
              have := joined.2
              rw [← hk, hrest, List.length_cons]
              omega
            rw [htokens, ← rest_of_join hjoin]
            exact (ih _ hlt h rfl).append before (hbehind groups)

theorem refuses_chain (hleads : operand.Leads) (hrefuses : operand.Refuses stop) :
    (Rule.chain limit stop level operand).Refuses stop := by
  intro groups tokens error h
  obtain hoperand | ⟨left, hleft, h⟩ := Except.bind_eq_error_iff.mp h
  · exact hrefuses groups tokens error hoperand
  · obtain ⟨before, htokens, hbehind⟩ := hleads tokens left hleft
    rw [htokens]
    exact (refusal_of_extend hleads hrefuses h).append before (hbehind groups)

end Chain

/-- Behind a chain there is no operator of its level. -/
theorem endsChain_of_chain {level : Operator → Bool} {operand : Rule}
    {parsed : Parsed tokens.length}
    (h : Rule.chain limit stop level operand tokens = .ok parsed) :
    EndsChain stop level parsed.rest := by
  obtain ⟨left, -, h⟩ := Except.bind_eq_ok_iff.mp h
  -- nothing has to be known of what the operands leave
  exact (extend_keeps (fun _ => True) (fun _ _ _ _ _ _ => trivial) h trivial).2

/-- Behind an expression there is no operator of either level. -/
theorem endsChains_of_expressionOver {factor : Rule} {parsed : Parsed tokens.length}
    (h : Rule.expressionOver limit stop factor tokens = .ok parsed) :
    EndsChain stop Operator.joinsFactors parsed.rest ∧
      EndsChain stop Operator.joinsTerms parsed.rest := by
  obtain ⟨left, hleft, h⟩ := Except.bind_eq_ok_iff.mp h
  refine extend_keeps (fun parsed => EndsChain stop _ parsed.rest) ?_ h (endsChain_of_chain hleft)
  intro left next tokens op right _ joined _ _ _ hright hjoin _
  rw [rest_of_join hjoin]
  exact endsChain_of_chain hright

/-- Where a group has to be closed and no operator follows, only the parenthesis leads on. -/
theorem next?_behind_eq_none {token : Token}
    (hfactors : Operator.ofTokenAt? Operator.joinsFactors token = none)
    (hterms : Operator.ofTokenAt? Operator.joinsTerms token = none) (hclose : token ≠ .closeParen) :
    (behind groups).next? token = none := by
  cases token with
  | plus => cases hterms
  | minus => cases hterms
  | star => cases hfactors
  | slash => cases hfactors
  | closeParen => exact absurd rfl hclose
  | _ => rfl

/-- A group that is not closed fails behind the expression in it. -/
theorem refusal_of_closeGroup {n : Nat} {parsed : Parsed n}
    (hfactors : EndsChain stop Operator.joinsFactors parsed.rest)
    (hterms : EndsChain stop Operator.joinsTerms parsed.rest)
    (h : parsed.closeGroup stop = .error error) :
    Refusal stop (behind (groups + 1)) parsed.rest error := by
  obtain ⟨e, depth, rest, hrest⟩ := parsed
  cases rest with
  | nil =>
    obtain ⟨position, rfl⟩ := hterms
    rw [Parsed.closeGroup_nil] at h
    obtain rfl := Except.error.inj h
    exact @Refusal.ending _ _ [] position (behind (groups + 1)) rfl rfl nofun
  | cons next rest =>
    by_cases hclose : next.token = .closeParen
    · rw [Parsed.closeGroup_closeParen hclose] at h
      cases h
    · rw [Parsed.closeGroup_of_ne hclose] at h
      obtain rfl := Except.error.inj h
      -- The chains ended here, so no operator joins this token, and it does not close the group.
      exact .head (next?_behind_eq_none hfactors hterms hclose)

/-! ### Factors -/

theorem refusal_of_negate {n position : Nat} {parsed : Parsed n}
    (h : parsed.negate limit position = .error error) : Refusal stop place tokens error := by
  unfold Parsed.negate at h
  split at h
  · cases h
  · split at h
    · obtain rfl := Except.error.inj h
      exact .tooDeep limit position
    · cases h

/-- A factor that is no group and has no minus sign before it fails at a token that begins none. -/
theorem refusal_of_factor_cons (hminus : next.token ≠ .minus) (hopen : next.token ≠ .openParen)
    (h : Rule.factor limit stop room (next :: tokens) = .error error) :
    Refusal stop (awaiting groups) (next :: tokens) error := by
  cases hnext : next.token with
  | number value => rw [Rule.factor_number hnext] at h; cases h
  | identifier name => rw [Rule.factor_identifier hnext] at h; cases h
  | minus => exact absurd hnext hminus
  | openParen => exact absurd hnext hopen
  -- The operators, the closing parenthesis and the end begin no factor.
  | _ =>
    rw [Rule.factor_illegal (by simp [hnext]) (by simp [hnext]) hminus hopen] at h
    obtain rfl := Except.error.inj h
    refine Refusal.head ?_
    rw [hnext]
    rfl

theorem refusal_of_factor_nil (h : Rule.factor limit stop room [] = .error error) :
    Refusal stop (awaiting groups) [] error := by
  rw [Rule.factor_nil] at h
  cases hstop : stop with
  | ending position =>
    rw [hstop] at h
    obtain rfl := Except.error.inj h
    exact @Refusal.ending _ _ [] position (awaiting groups) rfl rfl nofun
  | fault fault =>
    rw [hstop] at h
    obtain rfl := Except.error.inj h
    exact .fault rfl

theorem refusal_of_factor_minus (hnext : next.token = .minus)
    (hfactor : (Rule.factor limit stop room).Refuses stop)
    (h : Rule.factor limit stop (room + 1) (next :: tokens) = .error error) :
    Refusal stop (awaiting groups) (next :: tokens) error := by
  rw [Rule.factor_minus hnext] at h
  obtain hinner | ⟨inner, -, h⟩ := Except.bind_eq_error_iff.mp h
  · have hawaiting : (awaiting groups).next? next.token = some (awaiting groups) := by
      rw [hnext]
      rfl
    exact (hfactor groups tokens error hinner).cons hawaiting
  · exact refusal_of_negate (Except.map_eq_error_iff.mp h)

/-- Whatever is refused in a group is refused with one more group open. -/
theorem refusal_of_factor_group (hnext : next.token = .openParen)
    (hexpression : (Rule.expression limit stop room).Refuses stop)
    (hleads : (Rule.expression limit stop room).Leads)
    (h : Rule.factor limit stop (room + 1) (next :: tokens) = .error error) :
    Refusal stop (awaiting groups) (next :: tokens) error := by
  have hopen : (awaiting groups).next? next.token = some (awaiting (groups + 1)) := by
    rw [hnext]
    rfl
  rw [Rule.factor_openParen hnext, Except.map_eq_error_iff] at h
  refine Refusal.cons ?_ hopen
  -- Refused inside the group, or behind the expression in it.
  obtain hinner | ⟨inner, hinner, h⟩ := Except.bind_eq_error_iff.mp h
  · exact hexpression (groups + 1) tokens error hinner
  · obtain ⟨before, htokens, hbehind⟩ := hleads tokens inner hinner
    obtain ⟨hfactors, hterms⟩ := endsChains_of_expressionOver hinner
    rw [htokens]
    exact (refusal_of_closeGroup hfactors hterms h).append before (hbehind (groups + 1))

/-! ### Rules that fail -/

theorem leads_factor (hpos : 0 < limit) : (Rule.factor limit stop room).Leads :=
  leads_of_isDerived (isDerived_of_factor hpos room)

theorem leads_term (hpos : 0 < limit) : (Rule.term limit stop room).Leads :=
  leads_of_isDerived (isDerived_chain Derives.ofFactor
    (fun hop => Derives.product (Operator.joinsFactors_iff.mp hop)) (isDerived_of_factor hpos room))

theorem leads_expression (hpos : 0 < limit) : (Rule.expression limit stop room).Leads :=
  leads_of_isDerived fun _ _ h => isDerived_of_expression hpos h

/-- An expression fails as the factors in it do. -/
theorem refuses_expression_of_factor (hpos : 0 < limit)
    (hfactor : (Rule.factor limit stop room).Refuses stop) :
    (Rule.expression limit stop room).Refuses stop := by
  have hterm : (Rule.term limit stop room).Refuses stop := refuses_chain (leads_factor hpos) hfactor
  exact refuses_chain (leads_term hpos) hterm

/-- **A factor that cannot be read is refused.** -/
theorem refuses_factor (hpos : 0 < limit) : ∀ room, (Rule.factor limit stop room).Refuses stop := by
  intro room
  -- Induction on the levels left: without one, a minus and a group are refused for their depth.
  induction room with
  | zero =>
    intro groups tokens error h
    cases tokens with
    | nil => exact refusal_of_factor_nil h
    | cons next tokens =>
      by_cases hinner : next.token = .minus ∨ next.token = .openParen
      · rw [Rule.factor_zero hinner] at h
        obtain rfl := Except.error.inj h
        exact .tooDeep limit next.position
      · rw [not_or] at hinner
        exact refusal_of_factor_cons hinner.1 hinner.2 h
  | succ room ih =>
    intro groups tokens error h
    cases tokens with
    | nil => exact refusal_of_factor_nil h
    | cons next tokens =>
      by_cases hminus : next.token = .minus
      · exact refusal_of_factor_minus hminus ih h
      · by_cases hopen : next.token = .openParen
        · have hexpression := refuses_expression_of_factor hpos ih
          exact refusal_of_factor_group hopen hexpression (leads_expression hpos) h
        · exact refusal_of_factor_cons hminus hopen h

/-- **An expression that cannot be read is refused.** -/
theorem refuses_expression (hpos : 0 < limit) : (Rule.expression limit stop room).Refuses stop :=
  refuses_expression_of_factor hpos (refuses_factor hpos room)

/-- What is left behind an expression is refused outside of all groups. -/
theorem refusal_of_complete {n : Nat} {parsed : Parsed n}
    (hfactors : EndsChain stop Operator.joinsFactors parsed.rest)
    (hterms : EndsChain stop Operator.joinsTerms parsed.rest)
    (h : parsed.complete stop = .error error) : Refusal stop (behind 0) parsed.rest error := by
  obtain ⟨e, depth, rest, hrest⟩ := parsed
  cases rest with
  | nil =>
    obtain ⟨position, rfl⟩ := hterms
    cases h
  | cons next rest =>
    obtain rfl := Except.error.inj h
    refine Refusal.head ?_
    -- Behind the outermost expression there is no group to close.
    by_cases hclose : next.token = .closeParen
    · rw [hclose]
      rfl
    · exact next?_behind_eq_none hfactors hterms hclose

end

/-- **An input that cannot be read is refused.** -/
theorem Input.refusal_of_parseWithin {limit : Nat} (hpos : 0 < limit) {input : Input}
    {error : Error} (h : input.parseWithin limit = .error error) :
    Refusal input.stop (awaiting 0) input.tokens error := by
  obtain hexpression | ⟨parsed, hparsed, h⟩ := Except.bind_eq_error_iff.mp h
  · exact refuses_expression hpos 0 input.tokens error hexpression
  · obtain ⟨before, htokens, hbehind⟩ := leads_expression hpos input.tokens parsed hparsed
    obtain ⟨hfactors, hterms⟩ := endsChains_of_expressionOver hparsed
    rw [htokens]
    exact (refusal_of_complete hfactors hterms h).append before (hbehind 0)

end Abacus
