import Abacus.Proofs.Expr.Parts
import Abacus.Proofs.Grammar.Derivation
import Abacus.Proofs.Number.ReadingBack
import Abacus.Proofs.Token.Scanning

/-!
# The written form as tokens

The written form of an expression is scanned as the tokens that one expects: those of its leaves,
and for an operation a parenthesis, the left side, the operator, the right side and a parenthesis.
These tokens derive a factor with the expression as its tree, nested no deeper than the expression
is.  Only the least integer spoils this; the scan comes to a fault where the digits of the leftmost
one stand.

## Main definitions

* `IsName` — the texts that are names.
* `Number.tokens`, `Expr.tokens` — the tokens of the written form.
* `Expr.leastOffset?` — where the digits of the leftmost least integer stand.
* `Expr.IsWritable` — expressions whose names and constants can be written.
* `Scans` — characters that are read as given tokens.

## Main results

* `Expr.scans_text` — **the written form is scanned as its tokens**.
* `Expr.derives_tokens` — **these tokens derive the expression**, with a nesting within its depth.
-/

namespace Abacus

/-- A letter or an underscore, and letters, digits and underscores behind it. -/
def IsName (name : String) : Prop :=
  ∃ c cs, name.toList = c :: cs ∧ startsName c = true ∧ ∀ d ∈ cs, isNamePart d = true

/-- The characters are read as the given tokens, if what is behind them does not prolong a number
or a name. -/
def Scans (cs : List Char) (ts : List Token) : Prop :=
  ∀ offset rest, StopsRun isNumberPart rest →
    ∃ lts, lts.map Located.token = ts ∧
      inputAt offset (cs ++ rest) = (inputAt (offset + byteLength cs) rest).prepend lts

/-! ### Leaves -/

/-- The tokens of the written form of a number. -/
def Number.tokens (v : Number) : List Token :=
  if v.isNegative then [.minus, .number v.unsigned] else [.number v.unsigned]

/-- The digits of a number are a lexeme of the number without its sign. -/
theorem Number.isLexeme_digits {v : Number} (h : v.IsFinite) (hv : v ≠ .least) {rest : List Char}
    (hrest : StopsRun isNumberPart rest) : IsLexeme rest v.digits (.number v.unsigned) := by
  obtain ⟨c, cs, hdigits, hc, hparts⟩ := Number.exists_digits_eq h
  have hvalue := Number.ofLiteralChars?_digits h hv
  rw [hdigits] at hparts hvalue ⊢
  exact .number hc hparts hrest hvalue

theorem inputAt_digits {v : Number} (h : v.IsFinite) (hv : v ≠ .least) {offset : Nat}
    {rest : List Char} (hrest : StopsRun isNumberPart rest) :
    inputAt offset (v.digits ++ rest)
      = (inputAt (offset + byteLength v.digits) rest).cons ⟨.number v.unsigned, offset⟩ :=
  inputAt_of_isLexeme offset isBlanks_nil (Number.isLexeme_digits h hv hrest)

theorem scans_number {v : Number} (h : v.IsFinite) (hv : v ≠ .least) :
    Scans v.text.toList v.tokens := by
  intro offset rest hrest
  rw [Number.toList_text h, Number.tokens]
  cases v.isNegative with
  | false =>
    refine ⟨[⟨.number v.unsigned, offset⟩], rfl, ?_⟩
    exact inputAt_digits h hv hrest
  | true =>
    refine ⟨[⟨.minus, offset⟩, ⟨.number v.unsigned, offset + 1⟩], rfl, ?_⟩
    -- The sign is a token of its own, and the digits begin one byte later.
    have hminus : inputAt offset ('-' :: (v.digits ++ rest))
        = (inputAt (offset + 1) (v.digits ++ rest)).cons ⟨.minus, offset⟩ := inputAt_symbol rfl
    have hdigits := @inputAt_digits v h hv (offset + 1) rest hrest
    rw [Nat.add_assoc] at hdigits
    exact hminus.trans (congrArg (Input.cons _) hdigits)

theorem StopsRun.isNamePart {rest : List Char} (h : StopsRun isNumberPart rest) :
    StopsRun isNamePart rest := by
  intro c hc
  have hnot := h c hc
  rw [isNumberPart, Bool.or_eq_false_iff] at hnot
  exact hnot.1

/-- A name is a lexeme of itself. -/
theorem IsName.isLexeme {name : String} (h : IsName name) {rest : List Char}
    (hrest : StopsRun isNumberPart rest) : IsLexeme rest name.toList (.identifier name) := by
  obtain ⟨c, cs, hname, hc, hcs⟩ := h
  have hparts : ∀ d ∈ c :: cs, isNamePart d = true := by
    intro d hd
    rcases List.mem_cons.mp hd with rfl | hd
    · simp [isNamePart, hc]
    · exact hcs d hd
  have hof : String.ofList (c :: cs) = name := by rw [← hname, String.ofList_toList]
  rw [hname, ← hof]
  exact .name hc hparts hrest.isNamePart

theorem scans_name {name : String} (h : IsName name) : Scans name.toList [.identifier name] :=
  fun offset _ hrest => ⟨[⟨.identifier name, offset⟩], rfl,
    inputAt_of_isLexeme offset isBlanks_nil (h.isLexeme hrest)⟩

/-! ### Operations -/

/-- The symbol of an operator is a lexeme of its token. -/
theorem Operator.isLexeme_symbol (op : Operator) (rest : List Char) :
    IsLexeme rest op.symbol.toList op.token := by
  cases op with
  | add => exact .symbol (c := '+') rfl
  | subtract => exact .symbol (c := '-') rfl
  | multiply => exact .symbol (c := '*') rfl
  | divide => exact .symbol (c := '/') rfl

@[simp] theorem Operator.byteLength_symbol (op : Operator) : byteLength op.symbol.toList = 1 := by
  cases op <;> rfl

/-- An operator between blanks. -/
theorem inputAt_operator (op : Operator) (offset : Nat) (rest : List Char) :
    inputAt offset (' ' :: (op.symbol.toList ++ ' ' :: rest))
      = (inputAt (offset + 3) rest).cons ⟨op.token, offset + 1⟩ := by
  have hblank : IsBlanks [' '] := List.all_eq_true.mp rfl
  have hsymbol := inputAt_of_isLexeme offset hblank (op.isLexeme_symbol (' ' :: rest))
  rw [op.byteLength_symbol, inputAt_blank (c := ' ') rfl] at hsymbol
  exact hsymbol

namespace Expr

/-- Names are such as can be written, and constants are integers or finite floats. -/
structure IsWritable (e : Expr) : Prop where
  names : ∀ name, name ∈ e.names → IsName name
  constants : ∀ v, v ∈ e.constants → v.IsFinite

/-- The tokens of the written form. -/
def tokens : Expr → List Token
  | constant value => value.tokens
  | reference name => [.identifier name]
  | operation left operator right =>
    .openParen :: (left.tokens ++ operator.token :: right.tokens ++ [.closeParen])

/-- The offset in the written form where the digits of the leftmost least integer stand. -/
def leastOffset? : Expr → Option Nat
  | constant (.integer n) => if n = Int64.minValue then some 1 else none
  | constant (.float _) => none
  | reference _ => none
  | operation left _ right =>
    match left.leastOffset? with
    | some p => some (p + 1)
    | none => right.leastOffset?.map (· + (byteLength left.text.toList + 4))

/-- What follows the left side of an operation in a text. -/
def behindLeft (op : Operator) (r : Expr) (rest : List Char) : List Char :=
  ' ' :: (op.symbol.toList ++ ' ' :: (r.text.toList ++ ')' :: rest))

section Operation

variable {l r : Expr} {op : Operator}

theorem IsWritable.left (h : (operation l op r).IsWritable) : l.IsWritable :=
  ⟨fun name hname => h.names name (List.mem_append_left _ hname),
    fun v hv => h.constants v (List.mem_append_left _ hv)⟩

theorem IsWritable.right (h : (operation l op r).IsWritable) : r.IsWritable :=
  ⟨fun name hname => h.names name (List.mem_append_right _ hname),
    fun v hv => h.constants v (List.mem_append_right _ hv)⟩

theorem toList_text_operation :
    (operation l op r).text.toList = '(' :: (l.text.toList ++ behindLeft op r []) := by
  simp [text, behindLeft, String.toList_append]

theorem behindLeft_append (rest : List Char) :
    behindLeft op r [] ++ rest = behindLeft op r rest := by
  simp [behindLeft]

theorem byteLength_behindLeft (rest : List Char) :
    byteLength (behindLeft op r rest) = byteLength r.text.toList + byteLength rest + 4 := by
  have hclose : ')'.utf8Size = 1 := rfl
  have hblank : ' '.utf8Size = 1 := rfl
  simp only [behindLeft, byteLength_cons, byteLength_append, hclose, hblank,
    Operator.byteLength_symbol]
  omega

theorem byteLength_text_operation :
    byteLength (operation l op r).text.toList
      = byteLength l.text.toList + byteLength r.text.toList + 5 := by
  have hopen : '('.utf8Size = 1 := rfl
  rw [toList_text_operation, byteLength_cons, byteLength_append, byteLength_behindLeft, hopen,
    byteLength_nil]
  omega

theorem stopsRun_behindLeft (rest : List Char) : StopsRun isNumberPart (behindLeft op r rest) :=
  stopsRun_cons rfl

theorem inputAt_text_operation (offset : Nat) (rest : List Char) :
    inputAt offset ((operation l op r).text.toList ++ rest)
      = (inputAt (offset + 1) (l.text.toList ++ behindLeft op r rest)).cons
          ⟨.openParen, offset⟩ := by
  rw [toList_text_operation, List.cons_append, List.append_assoc, behindLeft_append]
  exact inputAt_symbol rfl

/-- If the left side of an operation is scanned, its right side comes next. -/
theorem exists_inputAt_text_operation {ts : List Token} (h : Scans l.text.toList ts)
    (offset : Nat) (rest : List Char) :
    ∃ ls, ls.map Located.token = ts ∧
      inputAt offset ((operation l op r).text.toList ++ rest)
        = (inputAt (offset + (byteLength l.text.toList + 4)) (r.text.toList ++ ')' :: rest)).prepend
            (⟨.openParen, offset⟩ ::
              (ls ++ [⟨op.token, offset + (byteLength l.text.toList + 2)⟩])) := by
  obtain ⟨ls, hls, hleft⟩ := h (offset + 1) (behindLeft op r rest) (stopsRun_behindLeft rest)
  have hoperator : offset + 1 + byteLength l.text.toList + 1
      = offset + (byteLength l.text.toList + 2) := by omega
  have hright : offset + 1 + byteLength l.text.toList + 3
      = offset + (byteLength l.text.toList + 4) := by omega
  refine ⟨ls, hls, ?_⟩
  rw [inputAt_text_operation, hleft, behindLeft, inputAt_operator, hoperator, hright]
  simp [Input.prepend, Input.cons]

theorem leastOffset?_operation_eq_none :
    (operation l op r).leastOffset? = none ↔ l.leastOffset? = none ∧ r.leastOffset? = none := by
  rw [leastOffset?]
  cases l.leastOffset? <;> simp

end Operation

theorem leastOffset?_eq_none_iff {e : Expr} :
    e.leastOffset? = none ↔ Number.least ∉ e.constants := by
  induction e with
  | constant value =>
    cases value with
    | integer n => simp [leastOffset?, constants, Number.least, eq_comm]
    | float x => simp [leastOffset?, constants, Number.least]
  | reference name => simp [leastOffset?, constants]
  | operation left operator right ihleft ihright =>
    rw [leastOffset?_operation_eq_none, ihleft, ihright, constants, List.mem_append, not_or]

theorem eq_least_of_leastOffset?_constant {value : Number} {p : Nat}
    (h : (constant value).leastOffset? = some p) : value = .least ∧ p = 1 := by
  cases value with
  | integer n =>
    rw [leastOffset?] at h
    split at h
    · next hn => exact ⟨congrArg Number.integer hn, (Option.some.inj h).symm⟩
    · exact nomatch h
  | float x => exact nomatch h

/-- The leftmost least integer is on the left side, or on the right side if there is none on the
left. -/
theorem leastOffset?_operation_eq_some {l r : Expr} {op : Operator} {p : Nat}
    (h : (operation l op r).leastOffset? = some p) :
    (∃ q, l.leastOffset? = some q ∧ p = q + 1) ∨
    (l.leastOffset? = none ∧ ∃ q, r.leastOffset? = some q ∧
      p = byteLength l.text.toList + 4 + q) := by
  -- The right operand is asked only if the left one has no such constant.
  rw [leastOffset?] at h
  cases hleft : l.leastOffset? with
  | some q =>
    simp only [hleft, Option.some.injEq] at h
    exact .inl ⟨q, rfl, h.symm⟩
  | none =>
    simp only [hleft, Option.map_eq_some_iff] at h
    obtain ⟨q, hq, rfl⟩ := h
    exact .inr ⟨rfl, q, hq, Nat.add_comm ..⟩

/-- Its digits do stand there. -/
theorem exists_text_eq_of_leastOffset? {e : Expr} : ∀ p, e.leastOffset? = some p →
    ∃ before after, e.text.toList = before ++ Number.least.digits ++ after ∧
      byteLength before = p := by
  induction e with
  | constant value =>
    intro p hp
    -- The sign is written in front of the digits, and the offset is that of the digits.
    obtain ⟨rfl, rfl⟩ := eq_least_of_leastOffset?_constant hp
    exact ⟨['-'], [], rfl, rfl⟩
  | reference name => exact fun p hp => nomatch hp
  | operation left operator right ihleft ihright =>
    intro p hp
    rw [toList_text_operation]
    rcases leastOffset?_operation_eq_some hp with ⟨q, hq, rfl⟩ | ⟨-, q, hq, rfl⟩
    · obtain ⟨before, after, htext, rfl⟩ := ihleft q hq
      refine ⟨'(' :: before, after ++ behindLeft operator right [], ?_, Nat.add_comm ..⟩
      rw [htext]
      simp
    · obtain ⟨before, after, htext, rfl⟩ := ihright q hq
      refine ⟨'(' :: (left.text.toList ++ ' ' :: (operator.symbol.toList ++ ' ' :: before)),
        after ++ [')'], ?_, ?_⟩
      · simp [behindLeft, htext]
      · have hopen : '('.utf8Size = 1 := rfl
        have hblank : ' '.utf8Size = 1 := rfl
        simp only [byteLength_cons, byteLength_append, Operator.byteLength_symbol, hopen, hblank]
        omega

/-- **The written form is scanned as its tokens.** -/
theorem scans_text {e : Expr} (h : e.IsWritable) (hleast : e.leastOffset? = none) :
    Scans e.text.toList e.tokens := by
  induction e with
  | constant value =>
    refine scans_number (h.constants value List.mem_cons_self) ?_
    rintro rfl
    exact leastOffset?_eq_none_iff.mp hleast List.mem_cons_self
  | reference name => exact scans_name (h.names name List.mem_cons_self)
  | operation left operator right ihleft ihright =>
    obtain ⟨hl, hr⟩ := leastOffset?_operation_eq_none.mp hleast
    intro offset rest hrest
    obtain ⟨ls, hls, hleft⟩ := exists_inputAt_text_operation (ihleft h.left hl) offset rest
    obtain ⟨rs, hrs, hright⟩ := ihright h.right hr
      (offset + (byteLength left.text.toList + 4)) (')' :: rest) (stopsRun_cons rfl)
    have hclose : ∀ position, inputAt position (')' :: rest)
        = (inputAt (position + 1) rest).cons ⟨.closeParen, position⟩ :=
      fun _ => inputAt_symbol rfl
    have hend : offset + (byteLength left.text.toList + 4) + byteLength right.text.toList + 1
        = offset + byteLength (operation left operator right).text.toList := by
      rw [byteLength_text_operation]
      omega
    -- The three parts are read one behind the other; what remains is to put the tokens together.
    rw [hleft, hright, hclose, hend]
    generalize offset + (byteLength left.text.toList + 4) + byteLength right.text.toList = position
    generalize offset + (byteLength left.text.toList + 2) = middle
    refine ⟨⟨.openParen, offset⟩ :: (ls ++ ⟨operator.token, middle⟩ ::
      (rs ++ [⟨.closeParen, position⟩])), ?_, ?_⟩
    · simp [tokens, hls, hrs]
    · simp [Input.prepend, Input.cons]

/-- **The tokens of the written form derive the expression.**  A group is one level of it, and the
minus sign of a constant stands where there is no deeper one. -/
theorem derives_tokens {e : Expr} (h : e.IsWritable) (hleast : e.leastOffset? = none) :
    ∃ n, n ≤ e.depth ∧ Derives .factor e.tokens e n := by
  induction e with
  | constant value =>
    have hfinite := h.constants value List.mem_cons_self
    have hv : value ≠ .least := by
      rintro rfl
      exact leastOffset?_eq_none_iff.mp hleast List.mem_cons_self
    rw [tokens, Number.tokens]
    cases hnegative : value.isNegative with
    | false =>
      refine ⟨0, Nat.zero_le _, ?_⟩
      rw [Number.unsigned_of_not_isNegative hnegative]
      exact .number value
    | true =>
      -- The sign is one level of nesting, and a constant under it is no level of depth.
      have hminus : Derives .factor [.minus, .number value.unsigned]
          (constant value.unsigned).negated 1 := .minus (.number _)
      rw [negated, Number.neg_unsigned hfinite hv hnegative] at hminus
      exact ⟨1, Nat.le_refl _, hminus⟩
  | reference name => exact ⟨0, Nat.zero_le _, .name name⟩
  | operation left operator right ihleft ihright =>
    obtain ⟨hl, hr⟩ := leastOffset?_operation_eq_none.mp hleast
    obtain ⟨m, hm, hleft⟩ := ihleft h.left hl
    obtain ⟨n, hn, hright⟩ := ihright h.right hr
    refine ⟨max m n + 1, ?_, .group (hleft.operation hright)⟩
    rw [depth_operation]
    omega

end Expr

end Abacus
