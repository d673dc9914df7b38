import Abacus.Expr.Parser
import Abacus.Proofs.Expr.Rendering
import Abacus.Proofs.Grammar.Acceptance
import Abacus.Proofs.Grammar.Faults

/-!
# Written expressions read back

An expression is read back from its written form, unless it is too deep or has names or constants
that cannot be written.  The least integer can be written, but not read: behind its minus sign stand
digits that are no integer.

## Main results

* `Expr.parse_text_of_leastOffset?_eq_none` — an expression without it is read back.
* `Expr.exists_inputAt_text_fault` — in one with it the scan and the rules come to its digits.
* `parse_text` — **what is read of a written expression**.
-/

namespace Abacus

namespace Expr

theorem parse_text_of_leastOffset?_eq_none {e : Expr} (h : e.IsWritable)
    (hdepth : e.depth ≤ maxDepth) (hleast : e.leastOffset? = none) : parse e.text = .ok e := by
  obtain ⟨lts, hts, hinput⟩ := scans_text h hleast 0 [] (stopsRun_nil _)
  obtain ⟨n, hn, hderives⟩ := derives_tokens h hleast
  have htokens : (Cursor.ofString e.text).input
      = ⟨lts, .ending (0 + byteLength e.text.toList)⟩ := by
    refine (Cursor.input_eq_inputAt _).trans ?_
    rw [List.append_nil] at hinput
    refine hinput.trans ?_
    rw [inputAt_nil, Input.prepend, List.append_nil]
  rw [parse, htokens]
  -- A rendering nests no deeper than its tree, so one bound gives both limits.
  refine Input.parseWithin_of_derives rfl (n := n) ?_ (Nat.le_trans hn hdepth) hdepth
  rw [← hts] at hderives
  exact .ofTerm (.ofFactor hderives)

/-! ### The least integer -/

/-- The digits of the least integer are read and are no number. -/
theorem inputAt_text_least (offset : Nat) {rest : List Char} (hrest : StopsRun isNumberPart rest) :
    inputAt offset (Number.least.text.toList ++ rest)
      = ⟨[⟨.minus, offset⟩], .fault (.malformedNumber "9223372036854775808" (offset + 1))⟩ := by
  have hfinite : Number.least.IsFinite := trivial
  obtain ⟨c, cs, hdigits, hc, hparts⟩ := Number.exists_digits_eq hfinite
  have htext : Number.least.text.toList = '-' :: Number.least.digits := Number.toList_text hfinite
  have hof : String.ofList Number.least.digits = "9223372036854775808" := by decide
  -- The minus is read by itself, and the digits alone are out of range by one.
  have hvalue := Number.ofLiteralChars?_digits_least
  rw [hdigits] at hparts hvalue hof
  have hminus : inputAt offset ('-' :: (c :: cs ++ rest))
      = (inputAt (offset + 1) (c :: cs ++ rest)).cons ⟨.minus, offset⟩ := inputAt_symbol rfl
  rw [htext, hdigits]
  refine hminus.trans ?_
  rw [inputAt_malformed hc hparts hrest hvalue, hof]
  rfl

/-- Of the written form the tokens before the digits of the leftmost least integer are scanned, and
they lead a rule on to the fault there. -/
theorem exists_inputAt_text_fault {e : Expr} (h : e.IsWritable) :
    ∀ p, e.leastOffset? = some p → ∀ offset rest, StopsRun isNumberPart rest →
      ∃ lts, inputAt offset (e.text.toList ++ rest)
          = ⟨lts, .fault (.malformedNumber "9223372036854775808" (offset + p))⟩ ∧
        ∀ limit room, e.depth ≤ limit → e.depth ≤ room →
          Level.factor.MeetsFault limit room lts := by
  induction e with
  | constant value =>
    intro p hp offset rest hrest
    obtain ⟨rfl, rfl⟩ := eq_least_of_leastOffset?_constant hp
    refine ⟨[⟨.minus, offset⟩], inputAt_text_least offset hrest, ?_⟩
    intro limit room _ hroom
    rw [depth_constant] at hroom
    obtain ⟨room, rfl⟩ : ∃ room', room = room' + 1 := ⟨room - 1, by omega⟩
    exact .minus rfl Level.meetsFault_nil
  | reference name => exact fun p hp => nomatch hp
  | operation left operator right ihleft ihright =>
    intro p hp offset rest hrest
    rcases leastOffset?_operation_eq_some hp with ⟨q, hleft, rfl⟩ | ⟨hleft, q, hright, rfl⟩
    · obtain ⟨lts, hinput, hmeets⟩ := ihleft h.left q hleft (offset + 1)
        (behindLeft operator right rest) (stopsRun_behindLeft rest)
      refine ⟨⟨.openParen, offset⟩ :: lts, ?_, ?_⟩
      · rw [inputAt_text_operation, hinput, Nat.add_assoc, Nat.add_comm 1 q]
        rfl
      · intro limit room hlimit hroom
        rw [depth_operation] at hlimit hroom
        obtain ⟨room, rfl⟩ : ∃ room', room = room' + 1 := ⟨room - 1, by omega⟩
        have hfactor := hmeets limit room (by omega) (by omega)
        exact .group rfl hfactor.ofFactor.ofTerm
    · -- The left side is complete, so the fault is met by the operand behind the operator.
      obtain ⟨ls, hls, hscan⟩ :=
        exists_inputAt_text_operation (scans_text h.left hleft) offset rest
      obtain ⟨rs, hinput, hmeets⟩ := ihright h.right q hright
        (offset + (byteLength left.text.toList + 4)) (')' :: rest) (stopsRun_cons rfl)
      obtain ⟨m, hm, hderives⟩ := derives_tokens h.left hleft
      rw [hscan, hinput, Nat.add_assoc]
      generalize offset + (byteLength left.text.toList + 2) = middle
      refine ⟨⟨.openParen, offset⟩ :: (ls ++ ⟨operator.token, middle⟩ :: rs), ?_, ?_⟩
      · simp [Input.prepend]
      · intro limit room hlimit hroom
        rw [depth_operation] at hlimit hroom
        obtain ⟨room, rfl⟩ : ∃ room', room = room' + 1 := ⟨room - 1, by omega⟩
        have hfactor := hmeets limit room (by omega) (by omega)
        exact .group rfl (hfactor.operation (by omega) (by omega) hls rfl hderives)

theorem parse_text_of_leastOffset? {e : Expr} (h : e.IsWritable) (hdepth : e.depth ≤ maxDepth)
    {p : Nat} (hp : e.leastOffset? = some p) :
    parse e.text = .error (.lex (.malformedNumber "9223372036854775808" p)) := by
  obtain ⟨lts, hinput, hmeets⟩ := exists_inputAt_text_fault h p hp 0 [] (stopsRun_nil _)
  rw [List.append_nil, Nat.zero_add] at hinput
  have htokens : (Cursor.ofString e.text).input
      = ⟨lts, .fault (.malformedNumber "9223372036854775808" p)⟩ :=
    (Cursor.input_eq_inputAt _).trans hinput
  rw [parse, htokens]
  exact Input.parseWithin_of_meetsFault (hmeets maxDepth maxDepth hdepth hdepth).ofFactor.ofTerm

end Expr

/-- **What is read of a written expression.**  If its depth is within the limit, its names can be
written, and its constants are integers or finite floats, it is the expression itself; but if the
least integer is among the constants, it is the complaint of the digits of the leftmost one, at the
offset where they stand. -/
theorem parse_text {e : Expr} (hdepth : e.depth ≤ maxDepth)
    (hnames : ∀ name, name ∈ e.names → IsName name)
    (hconstants : ∀ v, v ∈ e.constants → v.IsFinite) :
    (Number.least ∉ e.constants → Expr.parse e.text = .ok e) ∧
    (Number.least ∈ e.constants → ∃ p, e.leastOffset? = some p ∧
      (∃ before after, e.text.toList = before ++ Number.least.digits ++ after ∧
        byteLength before = p) ∧
      Expr.parse e.text = .error (.lex (.malformedNumber "9223372036854775808" p))) := by
  have hwritable : e.IsWritable := ⟨hnames, hconstants⟩
  refine ⟨fun hleast => ?_, fun hleast => ?_⟩
  · exact Expr.parse_text_of_leastOffset?_eq_none hwritable hdepth
      (Expr.leastOffset?_eq_none_iff.mpr hleast)
  · cases hp : e.leastOffset? with
    | none => exact absurd hleast (Expr.leastOffset?_eq_none_iff.mp hp)
    | some p =>
      -- The leftmost such constant is the one that stops the reading.
      exact ⟨p, rfl, Expr.exists_text_eq_of_leastOffset? p hp,
        Expr.parse_text_of_leastOffset? hwritable hdepth hp⟩

/-- Negative constants keep their kinds and their signs, that of zero too; and the digits of the
least integer are no number. -/
theorem parse_text_negative_constants :
    let e : Expr := .operation (.reference "x_1") .subtract
      (.operation (.constant (.integer (-3))) .divide (.constant (.float (-0.0))))
    let e' : Expr := .operation (.reference "x_1") .add (.constant Number.least)
    Expr.parse e.text = .ok e ∧
      Expr.parse e'.text = .error (.lex (.malformedNumber "9223372036854775808" 8)) := by
  intro e e'
  have hname : IsName "x_1" := ⟨'x', ['_', '1'], rfl, rfl, List.all_eq_true.mp rfl⟩
  have hnames : ∀ name, name ∈ e.names → IsName name := by
    intro name hmem
    obtain rfl := List.mem_singleton.mp hmem
    exact hname
  have hconstants : ∀ v, v ∈ e.constants → v.IsFinite := by
    intro v hv
    rcases List.mem_cons.mp hv with rfl | hv
    · exact trivial
    · obtain rfl := List.mem_singleton.mp hv
      show Float.isFinite (-0.0) = true
      decide +kernel
  have hleast : Number.least ∉ e.constants := Expr.leastOffset?_eq_none_iff.mp rfl
  have hnames' : ∀ name, name ∈ e'.names → IsName name := by
    intro name hmem
    obtain rfl := List.mem_singleton.mp hmem
    exact hname
  have hconstants' : ∀ v, v ∈ e'.constants → v.IsFinite := by
    intro v hv
    obtain rfl := List.mem_singleton.mp hv
    exact trivial
  refine ⟨(parse_text (by decide) hnames hconstants).1 hleast, ?_⟩
  obtain ⟨p, hp, -, hparse⟩ := (parse_text (by decide) hnames' hconstants').2 List.mem_cons_self
  obtain rfl : 8 = p := Option.some.inj hp
  exact hparse

end Abacus
