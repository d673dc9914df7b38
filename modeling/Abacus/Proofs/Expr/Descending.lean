import Abacus.Expr.Parser
import Abacus.Proofs.Token.Positions
import Abacus.Proofs.Token.Sources

/-!
# Reading from a source is reading what is to come of it

Reading tokens one at a time comes to the same as reading the sequence of all that are to come.
This holds also if the positions of the sequence are other ones: then it tells where its errors
stand in the source.  And the sequence need not stop as the source does, if the source stops at a
fault: as a reader looks no farther than it has to, either it never comes to the fault, or the fault
is what comes of it.

## Main definitions

* `Stop.Matches` — the stop of a source, beside that of a sequence which need not know all faults.
* `Agrees` — what comes of reading the one and the other.
* `Descent.SameTaken` — as much was read of the one as of the other.
* `Descent.Follows` — a reader of sources that does as one of sequences does.

## Main results

* `Descent.Follows.extend`, `Descent.SameTaken.negate`, `Descent.SameTaken.closeGroup` — the steps.
* `Descent.follows_factor`, `Descent.follows_expression` — the grammar.
* `Descent.parseWithin_agrees` — **all of it.**
* `Descent.parse_eq_mapError`, `Descent.parse_eq` — a source and what is to come of it.
* `Descent.exists_position_of_parse_eq_error` — where an error may stand.
* `Descent.parse_of_fault` — a source that stops at a fault, and any sequence of the same tokens.
-/

namespace Abacus

variable {f : Nat → Nat} {hidden : LexError → Prop} {stop stop' : Stop} {limit : Nat}

/-! ### Outcomes side by side -/

/-- The first stop is the second with other positions, or it is a fault that is hidden from the
second, whatever that is. -/
inductive Stop.Matches (f : Nat → Nat) (hidden : LexError → Prop) : Stop → Stop → Prop
  | ending (last : Nat) : Matches f hidden (.ending (f last)) (.ending last)
  | fault (error : LexError) : Matches f hidden (.fault (error.mapPosition f)) (.fault error)
  | hidden {error : LexError} (h : hidden error) (stop : Stop) :
      Matches f hidden (.fault error) stop

theorem Stop.matches_mapPosition (stop : Stop) :
    Stop.Matches f hidden (stop.mapPosition f) stop := by
  cases stop with
  | ending last => exact .ending last
  | fault error => exact .fault error

/-- The first outcome has a result that is related to that of the second, or it is the second but
for the positions, be it about a token or the fault that the tokens stop at; or it is a fault that
is hidden from the second, whatever that is. -/
inductive Agrees (f : Nat → Nat) (hidden : LexError → Prop) (stop : Stop) {α β : Type}
    (R : α → β → Prop) : Except Error α → Except Error β → Prop
  | ok {a : α} {b : β} (h : R a b) : Agrees f hidden stop R (.ok a) (.ok b)
  | error (error : ParseError) :
      Agrees f hidden stop R (.error (.parse (error.mapPosition f))) (.error (.parse error))
  | fault {error : LexError} (h : stop = .fault error) :
      Agrees f hidden stop R (.error (.lex (error.mapPosition f))) (.error (.lex error))
  | hidden {error : LexError} (h : hidden error) (outcome : Except Error β) :
      Agrees f hidden stop R (.error (.lex error)) outcome

namespace Agrees

variable {α β α' β' : Type} {R : α → β → Prop} {S : α' → β' → Prop}
  {x : Except Error α} {y : Except Error β}

/-- Steps that agree may be done after steps that do. -/
theorem bind {g : α → Except Error α'} {g' : β → Except Error β'} (h : Agrees f hidden stop' R x y)
    (hstep : ∀ {a b}, R a b → Agrees f hidden stop' S (g a) (g' b)) :
    Agrees f hidden stop' S (x.bind g) (y.bind g') := by
  cases h with
  | ok hab => exact hstep hab
  | error error => exact .error error
  | fault hstop => exact .fault hstop
  | hidden hhidden => exact .hidden hhidden _

/-- The result of the second may be given another form. -/
theorem map_right {S : α → β' → Prop} {g : β → β'} (h : Agrees f hidden stop' R x y)
    (hg : ∀ {a b}, R a b → S a (g b)) : Agrees f hidden stop' S x (y.map g) := by
  cases h with
  | ok hab => exact .ok (hg hab)
  | error error => exact .error error
  | fault hstop => exact .fault hstop
  | hidden hhidden => exact .hidden hhidden _

/-- Without hidden faults, the error is about a token or is the fault that the tokens stop at. -/
theorem eq_parse_or_eq_fault {error : Error}
    (h : Agrees f (fun _ => False) stop' R x (.error error)) :
    (∃ parseError, error = .parse parseError) ∨
      ∃ fault, stop' = .fault fault ∧ error = .lex fault := by
  cases h with
  | error parseError => exact .inl ⟨parseError, rfl⟩
  | @fault fault hstop => exact .inr ⟨fault, hstop, rfl⟩
  | hidden hfalse => exact hfalse.elim

/-- Equal results are the same outcome, but for the positions and for hidden faults. -/
theorem eq_mapError {x y : Except Error α} (h : Agrees f hidden stop' Eq x y) :
    (∃ error, hidden error ∧ x = .error (.lex error)) ∨ x = y.mapError (Error.mapPosition f) := by
  cases h with
  | ok hab => exact .inr (congrArg Except.ok hab)
  | error error => exact .inr rfl
  | fault hstop => exact .inr rfl
  | @hidden error hhidden => exact .inl ⟨error, hhidden, rfl⟩

end Agrees

namespace Descent

open TokenSource

variable {σ : Type} [TokenSource σ] {source : σ} {next : Located} {tokens : List Located}
  {level : Operator → Bool} {operand : Descent σ}

/-! ### What is seen by a look -/

/-- How a chain goes on is seen by a look at the next token. -/
theorem extend_eq_look_bind (left : Taken σ) :
    extend limit level operand left = (look left.source).bind fun (token, position, source) =>
      match Operator.ofTokenAt? level token with
      | none => .ok { left with source }
      | some operator => (operand (pass source)).bind fun right =>
        (left.join limit operator position right).bind (extend limit level operand) := by
  rw [extend, nextOperator]
  cases look left.source with
  | error error => rfl
  | ok shown =>
    obtain ⟨token, position, source⟩ := shown
    simp only [Except.map, Except.bind]
    cases Operator.ofTokenAt? level token with
    | none => rfl
    | some operator =>
      dsimp only
      -- Both sides look at what the join gives; the goal is split there only to name it.
      cases operand (pass source) with
      | error error => rfl
      | ok right =>
        dsimp only
        split
        · next h => rw [h]
        · next h => rw [h]

/-- Whether an expression was all that there is, is seen by a look. -/
theorem complete_eq_look_bind (taken : Taken σ) :
    complete taken = (look taken.source).bind fun (token, _, source) =>
      if token.isEof then .ok taken.expr
      else (look source).bind fun (token, position, _) =>
        .error (.parse (.trailingTokens token position)) := by
  unfold complete look atEnd
  cases peek taken.source with
  | mk result looked =>
    cases result with
    | error error => rfl
    | ok token => cases token <;> rfl

/-! ### What was read -/

/-- The same was read, and the same tokens are left. -/
structure SameTaken (f : Nat → Nat) (stop : Stop) {n : Nat} (taken : Taken σ)
    (parsed : Parsed n) : Prop where
  expr_eq : taken.expr = parsed.expr
  depth_eq : taken.depth = parsed.depth
  input_eq : input taken.source = ⟨parsed.rest.map (Located.mapPosition f), stop⟩

/-- Two sides that are the same are joined to the same. -/
theorem SameTaken.join {operator : Operator} {position m n : Nat} {left : Taken σ}
    {left' : Parsed n} {right : Taken σ} {right' : Parsed m} {h : m < n}
    (hleft : SameTaken f stop left left') (hright : SameTaken f stop right right') :
    Agrees f hidden stop' (fun joined joined' => SameTaken f stop joined joined'.1)
      (left.join limit operator (f position) right)
      (left'.join limit operator position right' h) := by
  unfold Taken.join Parsed.join
  rw [hleft.depth_eq, hright.depth_eq, hleft.expr_eq, hright.expr_eq]
  dsimp only
  split
  · exact .error (.nestingTooDeep limit position)
  · exact .ok ⟨rfl, rfl, hright.input_eq⟩

/-- A minus sign is put before the same. -/
theorem SameTaken.negate {position n : Nat} {taken : Taken σ} {parsed : Parsed n}
    (h : SameTaken f stop taken parsed) :
    Agrees f hidden stop' (SameTaken f stop) (negate limit (f position) taken)
      (parsed.negate limit position) := by
  obtain ⟨e, depth, source⟩ := taken
  obtain ⟨e', depth', rest, hrest⟩ := parsed
  obtain ⟨rfl, rfl, hinput⟩ := h
  unfold Descent.negate Parsed.negate
  -- Only a constant keeps its depth; the check for the others reads the depths alone, which agree.
  cases e with
  | constant value => exact .ok ⟨rfl, rfl, hinput⟩
  | reference name =>
    dsimp only
    split
    · exact .error (.nestingTooDeep limit position)
    · exact .ok ⟨rfl, rfl, hinput⟩
  | operation left operator right =>
    dsimp only
    split
    · exact .error (.nestingTooDeep limit position)
    · exact .ok ⟨rfl, rfl, hinput⟩

theorem SameTaken.widen {m n : Nat} {h : m ≤ n} {taken : Taken σ} {parsed : Parsed m}
    (hsame : SameTaken f stop taken parsed) : SameTaken f stop taken (parsed.widen h) :=
  ⟨hsame.expr_eq, hsame.depth_eq, hsame.input_eq⟩

/-- A descent does on sources what a rule does on the tokens to come. -/
def Follows (f : Nat → Nat) (hidden : LexError → Prop) (stop stop' : Stop)
    (descent : Descent σ) (rule : Rule) : Prop :=
  ∀ source tokens, input source = ⟨tokens.map (Located.mapPosition f), stop⟩ →
    Agrees f hidden stop' (SameTaken f stop) (descent source) (rule tokens)

variable [LawfulTokenSource σ]

/-! ### A look at the next token -/

/-- Before a token a look shows it. -/
theorem look_of_cons (h : input source = ⟨(next :: tokens).map (Located.mapPosition f), stop⟩) :
    ∃ looked, look source = .ok (next.token, f next.position, looked) ∧
      input looked = input source ∧ (consume looked).1 = some next.token ∧
      input (consume looked).2 = ⟨tokens.map (Located.mapPosition f), stop⟩ ∧
      next.token.isEof = false := by
  obtain ⟨looked, hshows, hnext⟩ := peek_of_cons h
  refine ⟨looked, ?_, hshows.input_looked, hshows.consume_eq, hshows.input_consume hnext, hnext⟩
  rw [look, hshows.peek_eq]
  show Except.ok (_, position looked, looked) = _
  rw [hshows.position_eq]
  rfl

theorem look_of_fault {error : LexError} (h : input source = ⟨[], .fault error⟩) :
    look source = .error (.lex error) := by
  obtain ⟨looked, hpeek⟩ := peek_of_fault h
  rw [look, hpeek]

theorem look_of_ending {last : Nat} (h : input source = ⟨[], .ending last⟩) :
    ∃ looked, look source = .ok (.eof, last, looked) ∧ input looked = input source ∧
      (consume looked).1 = some .eof := by
  obtain ⟨looked, later, hshows⟩ := peek_of_ending h
  refine ⟨looked, ?_, hshows.input_looked, hshows.consume_eq⟩
  rw [look, hshows.peek_eq]
  show Except.ok (_, position looked, looked) = _
  rw [hshows.position_eq]

/-- Where the tokens stop, a look shows the end or comes to the fault. -/
theorem agrees_look_bind {α β : Type} {R : α → β → Prop}
    {g : Token × Nat × σ → Except Error α} {atEnding : Nat → Except Error β}
    (hstop : stop.Matches f hidden stop') (hinput : input source = ⟨[], stop⟩)
    (hending : ∀ last looked, input looked = ⟨[], stop⟩ → (consume looked).1 = some .eof →
      Agrees f hidden stop' R (g (.eof, f last, looked)) (atEnding last)) :
    Agrees f hidden stop' R ((look source).bind g) (stop'.resolve atEnding) := by
  cases hstop with
  | ending last =>
    obtain ⟨looked, hlook, hlooked, hconsume⟩ := look_of_ending hinput
    rw [hlook]
    exact hending last looked (hlooked.trans hinput) hconsume
  | fault error =>
    -- An error of the source itself comes before anything the grammar would say.
    rw [look_of_fault hinput]
    exact .fault rfl
  | hidden h =>
    rw [look_of_fault hinput]
    exact .hidden h _

/-! ### The rules -/

section Rules

variable (hstop : stop.Matches f hidden stop')

include hstop

/-- **A chain goes on alike,** if its operands are read alike. -/
theorem Follows.extend {operand' : Rule} (hoperand : Follows f hidden stop stop' operand operand')
    {n : Nat} :
    ∀ {left : Taken σ} {left' : Parsed n}, SameTaken f stop left left' →
      Agrees f hidden stop' (SameTaken f stop) (extend limit level operand left)
        (Rule.extend limit stop' level operand' left') := by
  -- every operator takes at least one token, so the tokens left grow fewer
  suffices key : ∀ (k : Nat) (left : Taken σ) (left' : Parsed n), left'.rest.length = k →
      SameTaken f stop left left' →
      Agrees f hidden stop' (SameTaken f stop) (Descent.extend limit level operand left)
        (Rule.extend limit stop' level operand' left') from
    fun {left left'} => key _ left left' rfl
  intro k
  induction k using Nat.strongRecOn with
  | ind k ih =>
    intro left left' hk hleft
    have hinput := hleft.input_eq
    rw [extend_eq_look_bind]
    cases hrest : left'.rest with
    | nil =>
      rw [hrest] at hinput
      rw [Rule.extend_of_nil hrest]
      refine agrees_look_bind hstop hinput fun last looked hlooked _ => .ok ?_
      exact ⟨hleft.expr_eq, hleft.depth_eq, by rw [hrest]; exact hlooked⟩
    | cons next tokens =>
      rw [hrest] at hinput
      obtain ⟨looked, hlook, hlooked, -, hpass, -⟩ := look_of_cons hinput
      rw [hlook]
      simp only [Except.bind]
      cases htoken : Operator.ofTokenAt? level next.token with
      | none =>
        rw [Rule.extend_of_none hrest htoken]
        exact .ok ⟨hleft.expr_eq, hleft.depth_eq, by rw [hrest]; exact hlooked.trans hinput⟩
      | some operator =>
        rw [Rule.extend_of_some hrest htoken]
        refine (hoperand _ tokens hpass).bind fun {right right'} hright => ?_
        refine (hleft.join hright).bind fun {joined joined'} hjoined => ?_
        have hlt : joined'.1.rest.length < k := by
          have hjoined' := joined'.2
          rw [← hk, hrest, List.length_cons]
          omega
        exact ih _ hlt joined joined'.1 rfl hjoined

/-- Chains are read alike. -/
theorem Follows.chain {operand' : Rule} (hoperand : Follows f hidden stop stop' operand operand') :
    Follows f hidden stop stop' (chain limit level operand)
      (Rule.chain limit stop' level operand') :=
  fun source tokens hinput => (hoperand source tokens hinput).bind (hoperand.extend hstop)

theorem Follows.expressionOver {factor : Descent σ} {factor' : Rule}
    (hfactor : Follows f hidden stop stop' factor factor') :
    Follows f hidden stop stop' (expressionOver limit factor)
      (Rule.expressionOver limit stop' factor') :=
  (hfactor.chain hstop).chain hstop

/-- Groups are closed alike. -/
theorem SameTaken.closeGroup {n : Nat} {taken : Taken σ} {parsed : Parsed n}
    (h : SameTaken f stop taken parsed) :
    Agrees f hidden stop' (SameTaken f stop) (closeGroup taken) (parsed.closeGroup stop') := by
  obtain ⟨e, depth, source⟩ := taken
  obtain ⟨e', depth', rest, hrest⟩ := parsed
  obtain ⟨rfl, rfl, hinput⟩ := h
  -- Behind the last token the source shows the end; before it, both look at the same token.
  cases rest with
  | nil =>
    rw [Parsed.closeGroup_nil]
    exact agrees_look_bind hstop hinput fun last _ _ _ =>
      .error (.missingClosingParenthesis last)
  | cons next tokens =>
    obtain ⟨looked, hlook, -, -, hpass, -⟩ := look_of_cons hinput
    rw [Descent.closeGroup, hlook]
    simp only [Except.bind]
    by_cases hparen : next.token = .closeParen
    · rw [Parsed.closeGroup_closeParen hparen, hparen]
      exact .ok ⟨rfl, rfl, hpass⟩
    · rw [Parsed.closeGroup_of_ne hparen]
      split
      · contradiction
      · exact .error (.missingClosingParenthesis next.position)

theorem Follows.groupOver {factor : Descent σ} {factor' : Rule}
    (hfactor : Follows f hidden stop stop' factor factor') :
    Follows f hidden stop stop' (groupOver limit factor) (Rule.groupOver limit stop' factor') :=
  fun source tokens hinput =>
    (hfactor.expressionOver hstop source tokens hinput).bind (SameTaken.closeGroup hstop)

/-- Factors are read alike, if those in them are, or if there may be none. -/
theorem follows_factorOver {inner : Option (Descent σ)} {inner' : Option Rule}
    (hinner : Option.Rel (Follows f hidden stop stop') inner inner') :
    Follows f hidden stop stop' (factorOver limit inner) (Rule.factorOver limit stop' inner') := by
  intro source tokens hinput
  cases tokens with
  | nil =>
    refine agrees_look_bind hstop hinput fun last looked _ hconsume => ?_
    dsimp only
    rw [hconsume]
    exact .error (.illegalToken .eof last)
  | cons next tokens =>
    obtain ⟨looked, hlook, -, hconsume, hpass, -⟩ := look_of_cons hinput
    rw [factorOver, hlook]
    simp only [Except.bind, hconsume, Option.getD_some]
    obtain ⟨token, position⟩ := next
    -- One case for each token: two end the factor, two go one level down, and the others are
    -- refused where they stand.
    cases token with
    | number value => exact .ok ⟨rfl, rfl, hpass⟩
    | identifier name => exact .ok ⟨rfl, rfl, hpass⟩
    | minus =>
      cases hinner with
      | none => exact .error (.nestingTooDeep limit position)
      | some hfactor =>
        exact (hfactor _ tokens hpass).bind fun h => h.negate.map_right SameTaken.widen
    | openParen =>
      cases hinner with
      | none => exact .error (.nestingTooDeep limit position)
      | some hfactor =>
        exact (hfactor.groupOver hstop _ tokens hpass).map_right SameTaken.widen
    | eof => exact .error (.illegalToken .eof position)
    | plus => exact .error (.illegalToken .plus position)
    | star => exact .error (.illegalToken .star position)
    | slash => exact .error (.illegalToken .slash position)
    | closeParen => exact .error (.illegalToken .closeParen position)

/-- **Factors are read alike.** -/
theorem follows_factor : ∀ room,
    Follows f hidden stop stop' (factor limit room : Descent σ) (Rule.factor limit stop' room) := by
  intro room
  induction room with
  | zero => exact follows_factorOver hstop .none
  | succ room ih => exact follows_factorOver hstop (.some ih)

/-- **Expressions are read alike.** -/
theorem follows_expression (room : Nat) :
    Follows f hidden stop stop' (expression limit room : Descent σ)
      (Rule.expression limit stop' room) :=
  (follows_factor hstop room).expressionOver hstop

end Rules

/-! ### All that there is -/

theorem SameTaken.complete (hstop : stop.Matches f hidden stop') {n : Nat} {taken : Taken σ}
    {parsed : Parsed n} (h : SameTaken f stop taken parsed) :
    Agrees f hidden stop' Eq (complete taken) (parsed.complete stop') := by
  obtain ⟨e, depth, source⟩ := taken
  obtain ⟨e', depth', rest, hrest⟩ := parsed
  obtain ⟨rfl, rfl, hinput⟩ := h
  rw [complete_eq_look_bind]
  cases rest with
  | nil => exact agrees_look_bind hstop hinput fun _ _ _ _ => .ok rfl
  | cons next tokens =>
    obtain ⟨looked, hlook, hlooked, -, -, hnext⟩ := look_of_cons hinput
    -- The refusal looks once more, and a second look shows what the first did.
    obtain ⟨looked', hlook', -⟩ := look_of_cons (hlooked.trans hinput)
    rw [hlook]
    simp only [Except.bind, hnext, Bool.false_eq_true, if_false]
    rw [hlook']
    exact .error (.trailingTokens next.token next.position)

/-- **A source is read as its tokens are,** but for the positions and for hidden faults. -/
theorem parseWithin_agrees {tokens : List Located} (hstop : stop.Matches f hidden stop')
    (h : input source = ⟨tokens.map (Located.mapPosition f), stop⟩) :
    Agrees f hidden stop' Eq (parseWithin limit source)
      ((⟨tokens, stop'⟩ : Input).parseWithin limit) :=
  (follows_expression hstop limit source tokens h).bind (SameTaken.complete hstop)

/-- **What comes of a source is what comes of the tokens to come,** but for the positions. -/
theorem parse_eq_mapError {tokens : Input} (h : input source = tokens.mapPositions f) :
    parse source = tokens.parse.mapError (Error.mapPosition f) := by
  have hagrees : Agrees f (fun _ => False) tokens.stop Eq (parse source) tokens.parse :=
    parseWithin_agrees tokens.stop.matches_mapPosition h
  rcases hagrees.eq_mapError with ⟨_, hfalse, -⟩ | heq
  · exact hfalse.elim
  · exact heq

theorem parse_eq (source : σ) : parse source = (input source).parse := by
  rw [parse_eq_mapError (input source).mapPositions_id.symm]
  cases (input source).parse with
  | ok e => rfl
  | error error => exact congrArg Except.error error.mapPosition_id

/-- **An error stands where a token does, or where the tokens stop.** -/
theorem exists_position_of_parse_eq_error {P : Nat → Prop} (h : (input source).Within P)
    {error : Error} (herror : parse source = .error error) :
    ∃ p, error.position? = some p ∧ P p := by
  classical
  -- Positions of another kind could as well be that of the stop, and the outcome is the same.
  let g (p : Nat) : Nat := if P p then p else (input source).stop.position
  have hg : ∀ p, P (g p) := by
    intro p
    by_cases hp : P p
    · rw [show g p = p from if_pos hp]
      exact hp
    · rw [show g p = (input source).stop.position from if_neg hp]
      exact h.stop
  have hsame : (input source).mapPositions g = input source :=
    Input.mapPositions_eq_self h fun p hp => if_pos hp
  have hagrees : Agrees g (fun _ => False) (input source).stop Eq (parse source)
      (input source).parse :=
    parseWithin_agrees (input source).stop.matches_mapPosition hsame.symm
  rw [herror] at hagrees
  generalize (input source).parse = outcome at hagrees
  cases hagrees with
  | error error => exact ⟨g error.position, congrArg some error.position_mapPosition, hg _⟩
  | fault hstop => exact ⟨_, congrArg some (LexError.position_mapPosition _), hg _⟩
  | hidden hfalse => exact hfalse.elim

/-- Where a source does not stop at a fault, an error is about a token. -/
theorem exists_parse_of_parse_eq_error {last : Nat} (hstop : (input source).stop = .ending last)
    {error : Error} (h : parse source = .error error) :
    ∃ parseError, error = .parse parseError := by
  have hagrees : Agrees id (fun _ => False) (input source).stop Eq (parse source)
      (input source).parse := by
    refine parseWithin_agrees (input source).stop.matches_mapPosition ?_
    exact (input source).mapPositions_id.symm
  rw [← parse_eq source, h] at hagrees
  rcases hagrees.eq_parse_or_eq_fault with hparse | ⟨fault, hfault, -⟩
  · exact hparse
  · exact nomatch hstop.symm.trans hfault

/-- **A fault that a source stops at is what comes of it, or it is not met:** then the same comes of
the source as of its tokens with any other stop. -/
theorem parse_of_fault {tokens : List Located} {error : LexError}
    (h : input source = ⟨tokens.map (Located.mapPosition f), .fault error⟩) (stop : Stop) :
    parse source = .error (.lex error) ∨
      parse source = (⟨tokens, stop⟩ : Input).parse.mapError (Error.mapPosition f) := by
  have hagrees : Agrees f (Eq error) stop Eq (parse source) (⟨tokens, stop⟩ : Input).parse :=
    parseWithin_agrees (.hidden rfl stop) h
  rcases hagrees.eq_mapError with ⟨_, rfl, hfault⟩ | heq
  · exact .inl hfault
  · exact .inr heq

end Descent

end Abacus
