import Abacus.Proofs.Distinct
import Abacus.Proofs.Number.WholeResults
import Abacus.Proofs.Outcome
import Abacus.Proofs.Program.Compilation

/-!
# The names that are read

An evaluation reads the values of the names of its expression, from left to right, and those of no
other names.  Its outcome depends on these values alone.  If one of them is missing there is no
value; and if that is what is reported, the name is the first one that is missing.

## Main definitions

* `Way`, `Expr.outcome` — the expression is evaluated at once, or a program of it is run.
* `Bindings.AgreeOn` — the names have the same values under both bindings, or none under both.
* `Bindings.firstUnbound?` — the first of the names that has no value.

## Main results

* `Expr.evaluate_congr` — an evaluation reads no other names.
* `Expr.mem_of_evaluate_eq_ok` — it succeeds only after it has read all of them.
* `Expr.firstUnbound?_of_evaluate` — it reads them in their order.
* `outcome_depends_on_references` — **the outcome depends on the references**, however it is
  reached.
-/

namespace Abacus

/-- A way to evaluate an expression. -/
inductive Way
  | evaluate
  | run (folding : Bool)

/-- The outcome of an expression: of its evaluation, or of a run of its program. -/
def Expr.outcome (way : Way) (bindings : Bindings) (e : Expr) : Except EvalError Number :=
  match way with
  | .evaluate => e.evaluate bindings
  | .run folding => (Program.ofExpr folding e).1.run bindings

/-- All ways lead to one outcome. -/
theorem Expr.outcome_eq (way : Way) (bindings : Bindings) (e : Expr) :
    e.outcome way bindings = e.evaluate bindings := by
  cases way with
  | evaluate => rfl
  | run folding => exact run_ofExpr folding e bindings

namespace Bindings

variable {bindings : Bindings} {name other : String} {value : Number}

/-- Each of the names has the same value under both bindings, or none under both. -/
def AgreeOn (names : List String) (bindings bindings' : Bindings) : Prop :=
  ∀ name ∈ names, bindings[name]? = bindings'[name]?

/-- The first of the names that has no value. -/
def firstUnbound? (bindings : Bindings) (names : List String) : Option String :=
  names.find? fun name => name ∉ bindings

theorem mem_of_value_eq_ok (h : bindings.value name = .ok value) : name ∈ bindings := by
  unfold Bindings.value at h
  split at h
  · next found hfound => exact Std.TreeMap.mem_iff_isSome_getElem?.mpr (hfound ▸ rfl)
  · cases h

theorem value_eq_unbound (h : bindings.value name = .error (.unbound other)) :
    name ∉ bindings ∧ name = other := by
  unfold Bindings.value at h
  split at h
  · cases h
  · next hnone =>
    cases h
    refine ⟨fun hmem => ?_, rfl⟩
    have hsome := Std.TreeMap.mem_iff_isSome_getElem?.mp hmem
    rw [hnone] at hsome
    cases hsome

theorem firstUnbound?_append (bindings : Bindings) (names names' : List String) :
    bindings.firstUnbound? (names ++ names')
      = (bindings.firstUnbound? names).or (bindings.firstUnbound? names') :=
  List.find?_append

theorem firstUnbound?_eq_none_iff {names : List String} :
    bindings.firstUnbound? names = none ↔ ∀ name ∈ names, name ∈ bindings := by
  simp [firstUnbound?, List.find?_eq_none]

end Bindings

/-- To do an operation does not read any name. -/
theorem Number.apply_ne_unbound (operator : Operator) (a b : Number) (name : String) :
    apply operator a b ≠ .error (.unbound name) := by
  intro h
  obtain ⟨-, -, ⟨-, herror⟩ | herror⟩ := integers_of_apply_eq_error h
  · cases herror
  · cases herror

namespace Expr

variable {e : Expr} {bindings bindings' : Bindings} {name : String} {value : Number}

/-- **An evaluation reads no other names than those of the expression.** -/
theorem evaluate_congr (h : bindings.AgreeOn e.names bindings') :
    e.evaluate bindings = e.evaluate bindings' := by
  induction e with
  | constant value => rfl
  | reference name =>
    rw [evaluate_reference, evaluate_reference, Bindings.value, Bindings.value,
      h name (List.mem_singleton_self _)]
  | operation left operator right ihleft ihright =>
    obtain ⟨hleft, hright⟩ := List.forall_mem_append.mp h
    rw [evaluate_operation, evaluate_operation, ihleft hleft, ihright hright]

/-- **An evaluation succeeds only after it has read all names.** -/
theorem mem_of_evaluate_eq_ok (h : e.evaluate bindings = .ok value) :
    ∀ name ∈ e.names, name ∈ bindings := by
  induction e generalizing value with
  | constant _ => nofun
  | reference name => exact List.forall_mem_singleton.mpr (Bindings.mem_of_value_eq_ok h)
  | operation left operator right ihleft ihright =>
    obtain ⟨a, hleft, h⟩ := Except.bind_eq_ok_iff.mp h
    obtain ⟨b, hright, -⟩ := Except.bind_eq_ok_iff.mp h
    exact List.forall_mem_append.mpr ⟨ihleft hleft, ihright hright⟩

/-- **An evaluation reads the names in their order**: the name that it misses is the first one
without a value. -/
theorem firstUnbound?_of_evaluate (h : e.evaluate bindings = .error (.unbound name)) :
    bindings.firstUnbound? e.names = some name := by
  induction e with
  | constant _ => cases h
  | reference other =>
    obtain ⟨hother, rfl⟩ := Bindings.value_eq_unbound h
    simp [Bindings.firstUnbound?, hother]
  | operation left operator right ihleft ihright =>
    rw [names_operation, Bindings.firstUnbound?_append]
    rcases Except.bind_eq_error_iff.mp h with hleft | ⟨a, hleft, h⟩
    · rw [ihleft hleft, Option.some_or]
    · -- The left side has been evaluated, so none of its names is missing.
      rw [Bindings.firstUnbound?_eq_none_iff.mpr (mem_of_evaluate_eq_ok hleft), Option.none_or]
      rcases Except.bind_eq_error_iff.mp h with hright | ⟨b, -, happly⟩
      · exact ihright hright
      · exact absurd happly (Number.apply_ne_unbound operator a b name)

end Expr

/-- **The outcome depends on the references**, and on no other names, however it is reached.  A name
that is reported as missing is the first reference without a value; none is reported if all of them
have values; and if one of them has none, there is no value. -/
theorem outcome_depends_on_references (e : Expr) (way : Way) :
    (∀ bindings bindings' : Bindings, bindings.AgreeOn e.references bindings' →
      e.outcome way bindings = e.outcome way bindings') ∧
    ∀ bindings : Bindings,
      (∀ name, e.outcome way bindings = .error (.unbound name) →
        bindings.firstUnbound? e.references = some name) ∧
      ((∀ name ∈ e.references, name ∈ bindings) →
        ∀ name, e.outcome way bindings ≠ .error (.unbound name)) ∧
      ((∃ name ∈ e.references, name ∉ bindings) →
        ∀ value, e.outcome way bindings ≠ .ok value) := by
  have hfirst : ∀ bindings name, e.outcome way bindings = .error (.unbound name) →
      bindings.firstUnbound? e.references = some name := by
    intro bindings name h
    rw [Expr.outcome_eq] at h
    -- To list each name once does not change which of them is missing first.
    rw [Bindings.firstUnbound?, Expr.references, find?_eraseDups]
    exact Expr.firstUnbound?_of_evaluate h
  constructor
  · intro bindings bindings' hagree
    rw [Expr.outcome_eq, Expr.outcome_eq]
    exact Expr.evaluate_congr fun name hname => hagree name (Expr.mem_references.mpr hname)
  · intro bindings
    refine ⟨hfirst bindings, ?_, ?_⟩
    · intro hbound name h
      have hnone := Bindings.firstUnbound?_eq_none_iff.mpr hbound
      cases hnone.symm.trans (hfirst bindings name h)
    · rintro ⟨name, hname, hmissing⟩ value h
      rw [Expr.outcome_eq] at h
      exact hmissing (Expr.mem_of_evaluate_eq_ok h name (Expr.mem_references.mp hname))

/-- An operation that fails comes before the names behind it. -/
example :
    let quotient : Expr := .operation (.reference "x") .divide (.constant (.integer 0))
    (Expr.operation quotient .add (.reference "y")).outcome .evaluate
      ((∅ : Bindings).insert "x" (.integer 1)) = .error .divisionByZero := by
  rfl

end Abacus
