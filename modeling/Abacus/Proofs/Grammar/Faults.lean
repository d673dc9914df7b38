import Abacus.Proofs.Grammar.Completeness

/-!
# Faults behind the tokens

Where the tokens stop at a fault and a rule has to go on, the fault is what comes of it.  Tokens
that lead a rule on to the fault are found like derived ones: an incomplete factor is made of a
minus sign or a parenthesis before another one, and an incomplete term or expression ends in an
incomplete operand behind complete ones.

## Main definitions

* `Level.MeetsFault` — a rule comes to the end of the tokens and wants more.

## Main results

* `meetsFault_nil`, `Level.MeetsFault.minus`, `Level.MeetsFault.group` — incomplete factors.
* `Level.MeetsFault.sum`, `Level.MeetsFault.product`, `Level.MeetsFault.operation` — incomplete
  right sides.
* `Input.parseWithin_of_meetsFault` — **the fault is what comes of reading such an input**.
-/

namespace Abacus

namespace Level

/-- If the tokens stop at a fault, the rule of the level fails with this fault. -/
def MeetsFault (limit room : Nat) (tokens : List Located) (level : Level) : Prop :=
  ∀ error, level.rule limit (.fault error) room tokens = .error (.lex error)

variable {limit room : Nat} {next : Located} {tokens : List Located}

theorem meetsFault_nil : factor.MeetsFault limit room [] := by
  intro error
  exact Rule.factor_nil

theorem MeetsFault.ofFactor (h : factor.MeetsFault limit room tokens) :
    term.MeetsFault limit room tokens := by
  intro error
  exact term_error (h error)

theorem MeetsFault.ofTerm (h : term.MeetsFault limit room tokens) :
    expression.MeetsFault limit room tokens := by
  intro error
  exact expression_error (h error)

theorem MeetsFault.minus (hnext : next.token = .minus)
    (h : factor.MeetsFault limit room tokens) :
    factor.MeetsFault limit (room + 1) (next :: tokens) := by
  intro error
  exact factor_minus_error hnext (h error)

theorem MeetsFault.group (hnext : next.token = .openParen)
    (h : expression.MeetsFault limit room tokens) :
    factor.MeetsFault limit (room + 1) (next :: tokens) := by
  intro error
  exact factor_group_error hnext (h error)

section Operation

variable {ls : List Token} {lls : List Located} {l : Expr} {m : Nat} {op : Operator}
variable (hm : m ≤ room) (hdepth : l.depth ≤ limit) (hls : lls.map Located.token = ls)
  (hnext : next.token = op.token)

include hm hdepth hls hnext

theorem MeetsFault.sum (hop : op = .add ∨ op = .subtract) (hleft : Derives .expression ls l m)
    (h : term.MeetsFault limit room tokens) :
    expression.MeetsFault limit room (lls ++ next :: tokens) := by
  intro error
  have hfactors : op.joinsFactors = false := by rcases hop with rfl | rfl <;> rfl
  obtain ⟨hlt, hreach⟩ := reaches_of_derives (.fault error) hleft room lls _ (next :: tokens) hm
    hdepth hls rfl (endsChain_operator hnext hfactors)
  exact hreach.trans
    (extend_operator_error (.fault error) hlt hnext (Operator.joinsTerms_iff.mpr hop) (h error))

theorem MeetsFault.product (hop : op = .multiply ∨ op = .divide) (hleft : Derives .term ls l m)
    (h : factor.MeetsFault limit room tokens) :
    term.MeetsFault limit room (lls ++ next :: tokens) := by
  intro error
  obtain ⟨hlt, hreach⟩ := reaches_of_derives (.fault error) hleft room lls _ (next :: tokens) hm
    hdepth hls rfl
  exact hreach.trans
    (extend_operator_error (.fault error) hlt hnext (Operator.joinsFactors_iff.mpr hop) (h error))

/-- An operator of either level. -/
theorem MeetsFault.operation (hleft : Derives .factor ls l m)
    (h : factor.MeetsFault limit room tokens) :
    expression.MeetsFault limit room (lls ++ next :: tokens) := by
  by_cases hop : op = .multiply ∨ op = .divide
  · exact (h.product hm hdepth hls hnext hop (.ofFactor hleft)).ofTerm
  · have hop' : op = .add ∨ op = .subtract := by cases op <;> simp at hop ⊢
    exact h.ofFactor.sum hm hdepth hls hnext hop' (.ofTerm (.ofFactor hleft))

end Operation

end Level

/-- An input whose tokens lead on to a fault is not read but for the fault. -/
theorem Input.parseWithin_of_meetsFault {limit : Nat} {tokens : List Located} {error : LexError}
    (h : Level.expression.MeetsFault limit limit tokens) :
    (⟨tokens, .fault error⟩ : Input).parseWithin limit = .error (.lex error) := by
  have hexpression : Rule.expression limit (.fault error) limit tokens = .error (.lex error) :=
    h error
  show (Rule.expression limit (.fault error) limit tokens).bind _ = _
  rw [hexpression]
  rfl

end Abacus
