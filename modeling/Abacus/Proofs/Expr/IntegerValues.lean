import Abacus.Expr.Evaluation
import Abacus.Proofs.Expr.Parts
import Abacus.Proofs.Number.WholeResults

/-!
# The values of integer expressions

Where all constants and all values of names are integers, an expression has its exact value or none.
It has none as soon as one operation divides by zero or leads out of the integers of 64 bits; then
the first such operation tells what is wrong.

## Main definitions

* `Expr.wholeValue?` — the value over all integers.
* `Operation.IsExact` — the operation has such a value, and it is an integer of 64 bits.
* `Operation.fault` — what is wrong with an operation that is not exact.
* `Expr.firstFailing?` — the first operation that is not exact.

## Main results

* `Operation.apply_sides` — an operation on exact sides.
* `Expr.evaluate_of_integers` — an expression evaluates to its exact value, or it fails as its
  first inexact operation does.
* `integer_evaluation_exact` — **integer evaluation is exact or refuses.**
-/

namespace Abacus

/-! ### Values over all integers -/

/-- The whole number that a number is, if it is an integer. -/
def Number.whole? : Number → Option Int
  | integer n => some n.toInt
  | float _ => none

/-- The value of an expression over all integers.  It has none if something in it is divided by zero
or is no integer. -/
def Expr.wholeValue? (bindings : Bindings) : Expr → Option Int
  | constant value => value.whole?
  | reference name => bindings[name]?.bind Number.whole?
  | operation left operator right =>
    (left.wholeValue? bindings).bind fun a =>
      (right.wholeValue? bindings).bind fun b => operator.wholeResult? a b

/-- Nothing in the operation is divided by zero, and its exact value is an integer of 64 bits. -/
def Operation.IsExact (bindings : Bindings) (o : Operation) : Prop :=
  ∃ n ∈ o.expr.wholeValue? bindings, FitsInteger n

instance (bindings : Bindings) (o : Operation) : Decidable (o.IsExact bindings) :=
  inferInstanceAs (Decidable (∃ n ∈ o.expr.wholeValue? bindings, FitsInteger n))

/-- What is wrong with an operation whose sides are exact and that is not exact itself. -/
def Operation.fault (bindings : Bindings) (o : Operation) : EvalError :=
  if o.operator = .divide ∧ o.right.wholeValue? bindings = some 0 then .divisionByZero
  else .overflow o.operator

/-- The first operation that is not exact. -/
def Expr.firstFailing? (bindings : Bindings) (e : Expr) : Option Operation :=
  e.operations.find? fun o => ¬ o.IsExact bindings

/-! ### One operation -/

section OneOperation

variable {a b : Int64} {n : Int} {o : Operation} {bindings : Bindings}

namespace Operation

theorem wholeValue?_expr (hleft : o.left.wholeValue? bindings = some a.toInt)
    (hright : o.right.wholeValue? bindings = some b.toInt) :
    o.expr.wholeValue? bindings = o.operator.wholeResult? a.toInt b.toInt := by
  rw [expr, Expr.wholeValue?, hleft, hright]
  rfl

theorem isExact_iff (h : o.expr.wholeValue? bindings = some n) :
    o.IsExact bindings ↔ FitsInteger n := by
  simp [IsExact, h]

/-- **An operation on exact sides has its exact value or fails with its own fault.** -/
theorem apply_sides (hleft : o.left.wholeValue? bindings = some a.toInt)
    (hright : o.right.wholeValue? bindings = some b.toInt) :
    (o.IsExact bindings ∧ ∃ n : Int64,
      Number.apply o.operator (.integer a) (.integer b) = .ok (.integer n) ∧
        o.expr.wholeValue? bindings = some n.toInt) ∨
    (¬ o.IsExact bindings ∧
      Number.apply o.operator (.integer a) (.integer b) = .error (o.fault bindings)) := by
  have hexpr := wholeValue?_expr hleft hright
  cases hexact : o.operator.wholeResult? a.toInt b.toInt with
  | none =>
    have hzero := Operator.wholeResult?_eq_none_iff.mp hexact
    have hfault : o.fault bindings = .divisionByZero := if_pos ⟨hzero.1, hzero.2 ▸ hright⟩
    refine .inr ⟨?_, ?_⟩
    · rintro ⟨n, hn, -⟩
      exact nomatch hexact.symm.trans (hexpr.symm.trans hn)
    · rw [Number.apply_of_wholeResult?_eq_none hexact, hfault]
  | some n =>
    rw [hexact] at hexpr
    rw [Number.apply_of_wholeResult? hexact, isExact_iff hexpr]
    by_cases hfits : FitsInteger n
    · obtain ⟨i, hi, hn⟩ := Number.ofResult_of_fitsInteger o.operator hfits
      exact .inl ⟨hfits, i, hi, hn ▸ hexpr⟩
    · -- An operation that divides by zero would have no exact value.
      have hnonzero : ¬ (o.operator = .divide ∧ o.right.wholeValue? bindings = some 0) := by
        rintro ⟨hdivide, hzero⟩
        have hb : b.toInt = 0 := Option.some.inj (hright.symm.trans hzero)
        exact nomatch hexact.symm.trans (Operator.wholeResult?_eq_none_iff.mpr ⟨hdivide, hb⟩)
      have hfault : o.fault bindings = .overflow o.operator := if_neg hnonzero
      exact .inr ⟨hfits, by rw [Number.ofResult_of_not_fitsInteger hfits, hfault]⟩

end Operation

end OneOperation

/-! ### Whole expressions -/

namespace Expr

variable {bindings : Bindings} {e : Expr}

theorem firstFailing?_operation (left : Expr) (operator : Operator) (right : Expr) :
    (operation left operator right).firstFailing? bindings
      = ((left.firstFailing? bindings).or (right.firstFailing? bindings)).or
          ([⟨left, operator, right⟩].find? fun o => ¬ o.IsExact bindings) := by
  rw [firstFailing?, operations_operation, List.find?_append, List.find?_append]
  rfl

theorem firstFailing?_eq_none_iff :
    e.firstFailing? bindings = none ↔ ∀ o ∈ e.operations, o.IsExact bindings := by
  simp [firstFailing?, List.find?_eq_none]

/-- **An expression of integers evaluates to its exact value, or it fails as its first inexact
operation does.** -/
theorem evaluate_of_integers (hconstants : ∀ value ∈ e.constants, value.isInteger = true)
    (hnames : ∀ name ∈ e.names, ∃ n : Int64, bindings[name]? = some (.integer n)) :
    (e.firstFailing? bindings = none ∧ ∃ n : Int64,
      e.evaluate bindings = .ok (.integer n) ∧ e.wholeValue? bindings = some n.toInt) ∨
    ∃ o, e.firstFailing? bindings = some o ∧ e.evaluate bindings = .error (o.fault bindings) := by
  induction e with
  | constant value =>
    cases value with
    | integer n => exact .inl ⟨rfl, n, rfl, rfl⟩
    | float x => exact nomatch hconstants _ (List.mem_singleton_self _)
  | reference name =>
    obtain ⟨n, hn⟩ := hnames name (List.mem_singleton_self _)
    refine .inl ⟨rfl, n, ?_, ?_⟩
    · rw [evaluate_reference, Bindings.value, hn]
    · rw [wholeValue?, hn]
      rfl
  | operation left operator right ihleft ihright =>
    obtain ⟨hleft, hright⟩ := List.forall_mem_append.mp hconstants
    obtain ⟨hnamesl, hnamesr⟩ := List.forall_mem_append.mp hnames
    rw [firstFailing?_operation, evaluate_operation]
    rcases ihleft hleft hnamesl with ⟨hnonel, a, ha, hexacta⟩ | ⟨o, ho, hfault⟩
    · rcases ihright hright hnamesr with ⟨hnoner, b, hb, hexactb⟩ | ⟨o, ho, hfault⟩
      · -- Both sides have their exact values: the operation on them is the last one.
        have heval : ((left.evaluate bindings).bind fun a =>
            (right.evaluate bindings).bind fun b => Number.apply operator a b)
              = Number.apply operator (.integer a) (.integer b) := by
          rw [ha, hb]
          rfl
        rw [hnonel, hnoner, heval]
        rcases Operation.apply_sides (o := ⟨left, operator, right⟩) hexacta hexactb with
          ⟨hexact, n, hn, hvalue⟩ | ⟨hinexact, hfault⟩
        · exact .inl ⟨by simp [hexact], n, hn, hvalue⟩
        · exact .inr ⟨_, by simp [hinexact], hfault⟩
      · exact .inr ⟨o, by rw [hnonel, ho]; rfl, by rw [ha, hfault]; rfl⟩
    · exact .inr ⟨o, by rw [ho]; rfl, by rw [hfault]; rfl⟩

end Expr

/-- **Integer evaluation is exact or refuses.**  Where all constants and the values of all names are
integers, an expression has a value exactly if all its operations are exact, and this is its exact
value.  Otherwise its first operation that is not exact tells what is wrong. -/
theorem integer_evaluation_exact (e : Expr) (bindings : Bindings)
    (hconstants : ∀ value ∈ e.constants, value.isInteger = true)
    (hreferences : ∀ name ∈ e.references, ∃ n : Int64, bindings[name]? = some (.integer n)) :
    (∀ value, e.evaluate bindings = .ok value ↔
      (∀ o ∈ e.operations, o.IsExact bindings) ∧
        ∃ n : Int64, value = .integer n ∧ e.wholeValue? bindings = some n.toInt) ∧
    ∀ error, e.evaluate bindings = .error error ↔
      ∃ o, e.firstFailing? bindings = some o ∧ error = o.fault bindings := by
  have hnames : ∀ name ∈ e.names, ∃ n : Int64, bindings[name]? = some (.integer n) :=
    fun name hname => hreferences name (Expr.mem_references.mpr hname)
  -- Either no operation fails, and the value is exact, or the first that fails gives its error.
  rcases Expr.evaluate_of_integers hconstants hnames with ⟨hnone, n, hn, hexact⟩ | ⟨o, ho, hfault⟩
  · constructor
    · intro value
      rw [hn, ← Expr.firstFailing?_eq_none_iff]
      constructor
      · intro h
        exact ⟨hnone, n, (Except.ok.inj h).symm, hexact⟩
      · rintro ⟨-, m, rfl, hm⟩
        have heq : n = m := Int64.toInt_inj.mp (Option.some.inj (hexact.symm.trans hm))
        rw [heq]
    · intro error
      simp [hn, hnone]
  · constructor
    · intro value
      simp [hfault, ← Expr.firstFailing?_eq_none_iff, ho]
    · intro error
      simp [hfault, ho, eq_comm]

/-- The least integer divided by minus one comes before the division by zero. -/
theorem integer_evaluation_exact_least_by_minusOne :
    let least : Number := .integer Int64.minValue
    let e : Expr := .operation
      (.operation (.reference "x") .divide (.constant (.integer (-1)))) .add
      (.operation (.constant (.integer 1)) .divide (.constant (.integer 0)))
    let bindings : Bindings := (∅ : Bindings).insert "x" least
    (∀ value ∈ e.constants, value.isInteger = true) ∧
      (∀ name ∈ e.references, ∃ n : Int64, bindings[name]? = some (.integer n)) ∧
      e.evaluate bindings = .error (.overflow .divide) := by
  intro least e bindings
  have hconstants : ∀ value ∈ e.constants, value.isInteger = true := by decide
  have hreferences : ∀ name ∈ e.references, ∃ n : Int64, bindings[name]? = some (.integer n) := by
    intro name hname
    obtain rfl : name = "x" := List.mem_singleton.mp hname
    exact ⟨Int64.minValue, rfl⟩
  refine ⟨hconstants, hreferences, ?_⟩
  exact ((integer_evaluation_exact e bindings hconstants hreferences).2 _).mpr ⟨_, rfl, rfl⟩

end Abacus
