import Abacus.Proofs.Calculator.Runs
import Abacus.Proofs.Program.Compilation
import Abacus.Proofs.Program.UnknownNames

/-!
# What calculators answer

What a calculator answers depends on the call and on whether its settings are strict: not on the
calls before, nor on what it remembers programs in and how many, nor on whether it folds constants.

## Main definitions

* `Program.Means` — a program that tells of an expression all that can be observed.
* `Call.Answers` — what the answer to a call has to be, whatever was called before.
* `Answer.Agrees` — answers that no one can tell apart.

## Main results

* `CalculatorOver.answers_step` — a sound calculator gives the right answer.
* `Call.Answers.agrees` — right answers agree.
* `answers_after_any_run` — **cache, folding and history are invisible**.
-/

namespace Abacus

/-- The program has the text and the names of the expression, and the same outcome under all
bindings. -/
structure Program.Means (program : Program) (e : Expr) : Prop where
  text_eq : program.text = e.text
  references_eq : program.references = e.references
  run_eq : ∀ bindings, program.run bindings = e.evaluate bindings

theorem Program.means_ofExpr (folding : Bool) (e : Expr) :
    (Program.ofExpr folding e).1.Means e :=
  ⟨rfl, rfl, run_ofExpr folding e⟩

/-- What the answer to a call has to be.  An unknown name, if that is checked for, comes before all
that could go wrong in the evaluation. -/
inductive Call.Answers (strict : Bool) : Call → Answer → Prop
  | unreadable {text : String} {error : Error} (hparse : Expr.parse text = .error error) :
      Answers strict (.compile text) (.program (.error error))
  | program {text : String} {e : Expr} {program : Program} (hparse : Expr.parse text = .ok e)
      (hmeans : program.Means e) : Answers strict (.compile text) (.program (.ok program))
  | invalid {text : String} {bindings : Bindings} {error : Error}
      (hparse : Expr.parse text = .error error) :
      Answers strict (.calculate text bindings) (.value (.error error))
  | unknown {text : String} {bindings : Bindings} {e : Expr} {name : String}
      (hparse : Expr.parse text = .ok e) (hstrict : strict = true)
      (hname : IsLeastUnknown e.references bindings name) :
      Answers strict (.calculate text bindings)
        (.value (.error (.eval (.unknownBinding name))))
  | value {text : String} {bindings : Bindings} {e : Expr} (hparse : Expr.parse text = .ok e)
      (hknown : strict = true → ∀ name, name ∈ bindings → name ∈ e.references) :
      Answers strict (.calculate text bindings) (.value (Abacus.calculate text bindings))
  | cleared : Answers strict .clear .cleared

/-- Answers with the same values and errors; programs are the same if their texts, names and
outcomes are. -/
def Answer.Agrees : Answer → Answer → Prop
  | .program (.ok one), .program (.ok other) =>
    one.text = other.text ∧ one.references = other.references ∧
      ∀ bindings, one.run bindings = other.run bindings
  | .program (.error error), .program (.error error') => error = error'
  | .value result, .value result' => result = result'
  | .cleared, .cleared => True
  | _, _ => False

namespace CalculatorOver

variable {σ : Type} {calculator : CalculatorOver σ}

/-- The value of a program that means an expression, under settings of either kind. -/
theorem evaluate_of_means {program : Program} {e : Expr} (h : program.Means e)
    (bindings : Bindings) :
    (calculator.config.strictBindings = true ∧ ∃ name, IsLeastUnknown e.references bindings name ∧
      calculator.evaluate program bindings = .error (.unknownBinding name)) ∨
    ((calculator.config.strictBindings = true → ∀ name, name ∈ bindings → name ∈ e.references) ∧
      calculator.evaluate program bindings = e.evaluate bindings) := by
  rw [← h.references_eq, ← h.run_eq]
  unfold CalculatorOver.evaluate
  split
  · next hstrict =>
    -- A strict run is refused for a name the program does not read, and otherwise is a run.
    by_cases hknown : ∀ name, name ∈ bindings → name ∈ program.references
    · exact .inr ⟨fun _ => hknown, Program.runStrict_eq_run hknown⟩
    · have hunknown : ∃ name, name ∈ bindings ∧ name ∉ program.references := by
        simpa using hknown
      obtain ⟨name, hname, herror⟩ := Program.exists_runStrict_eq_error hunknown
      exact .inl ⟨hstrict, name, hname, herror⟩
  · next hlenient => exact .inr ⟨fun hstrict => absurd hstrict hlenient, rfl⟩

variable [Cache σ String Program] [LawfulCache σ String Program]

theorem answers_compile (h : calculator.Sound) (text : String) :
    (Call.compile text).Answers calculator.config.strictBindings
      (.program (calculator.compile text).1.result) := by
  rw [result_compile h]
  cases hparse : Expr.parse text with
  | error error => exact .unreadable hparse
  | ok e => exact .program hparse (Program.means_ofExpr _ e)

theorem answers_calculate (h : calculator.Sound) (text : String) (bindings : Bindings) :
    (Call.calculate text bindings).Answers calculator.config.strictBindings
      (.value (calculator.calculate text bindings).1) := by
  have hvalue : (calculator.calculate text bindings).1
      = (calculator.compile text).1.result.bind fun program =>
          (calculator.evaluate program bindings).mapError Error.eval := rfl
  rw [hvalue, result_compile h]
  cases hparse : Expr.parse text with
  | error error => exact .invalid hparse
  | ok e =>
    have hmeans := Program.means_ofExpr calculator.config.foldConstants e
    dsimp only [Except.map, Except.bind]
    rcases evaluate_of_means hmeans bindings with ⟨hstrict, name, hname, heq⟩ | ⟨hknown, heq⟩
    · rw [heq]
      exact .unknown hparse hstrict hname
    · have hdirect : Abacus.calculate text bindings
          = (e.evaluate bindings).mapError Error.eval := by
        rw [Abacus.calculate, hparse]
        rfl
      rw [heq, ← hdirect]
      exact .value hparse hknown

/-- The answer of a sound calculator is right. -/
theorem answers_step (h : calculator.Sound) (call : Call) :
    call.Answers calculator.config.strictBindings (calculator.step call).1 := by
  cases call with
  | compile text => exact answers_compile h text
  | calculate text bindings => exact answers_calculate h text bindings
  | clear => exact .cleared

/-- After any run the next call is answered rightly. -/
theorem answers_run_ofConfig (config : Config) (before : List Call) (call : Call) :
    call.Answers config.strictBindings
      (((ofConfig config : CalculatorOver σ).run before).step call).1 := by
  have hsound : ((ofConfig config : CalculatorOver σ).run before).Sound :=
    sound_run (sound_ofConfig config) before
  have hconfig : ((ofConfig config : CalculatorOver σ).run before).config = config :=
    config_run before
  have hanswers := answers_step hsound call
  rwa [hconfig] at hanswers

end CalculatorOver

/-- Right answers to one call agree. -/
theorem Call.Answers.agrees {strict : Bool} {call : Call} {answer answer' : Answer}
    (h : call.Answers strict answer) (h' : call.Answers strict answer') :
    answer.Agrees answer' := by
  cases h with
  | unreadable hparse =>
    cases h' with
    | unreadable hparse' => exact Except.error.inj (hparse.symm.trans hparse')
    | program hparse' _ => exact nomatch hparse.symm.trans hparse'
  | program hparse hmeans =>
    cases h' with
    | unreadable hparse' => exact nomatch hparse.symm.trans hparse'
    | program hparse' hmeans' =>
      obtain rfl := Except.ok.inj (hparse.symm.trans hparse')
      refine ⟨hmeans.text_eq.trans hmeans'.text_eq.symm,
        hmeans.references_eq.trans hmeans'.references_eq.symm, fun bindings => ?_⟩
      exact (hmeans.run_eq bindings).trans (hmeans'.run_eq bindings).symm
  | invalid hparse =>
    cases h' with
    | invalid hparse' => exact congrArg Except.error (Except.error.inj (hparse.symm.trans hparse'))
    | unknown hparse' _ _ => exact nomatch hparse.symm.trans hparse'
    | value hparse' _ => exact nomatch hparse.symm.trans hparse'
  | unknown hparse hstrict hname =>
    cases h' with
    | invalid hparse' => exact nomatch hparse.symm.trans hparse'
    | unknown hparse' _ hname' =>
      obtain rfl := Except.ok.inj (hparse.symm.trans hparse')
      obtain rfl := hname.unique hname'
      rfl
    | value hparse' hknown =>
      -- That all names are known is refuted by the unknown one.
      obtain rfl := Except.ok.inj (hparse.symm.trans hparse')
      exact absurd (hknown hstrict _ hname.mem) hname.not_mem
  | value hparse hknown =>
    cases h' with
    | invalid hparse' => exact nomatch hparse.symm.trans hparse'
    | unknown hparse' hstrict hname =>
      obtain rfl := Except.ok.inj (hparse.symm.trans hparse')
      exact absurd (hknown hstrict _ hname.mem) hname.not_mem
    | value _ _ => rfl
  | cleared =>
    cases h'
    exact trivial

/-- **Cache, folding and history are invisible.**  Whatever was called before, and whatever programs
are remembered in, each call gets the one right answer; so calculators that differ only in the
number of programs they remember, in whether they fold constants, and in the calls before, give
answers that agree. -/
theorem answers_after_any_run (σ : Type) [Cache σ String Program] [LawfulCache σ String Program] :
    (∀ (config : Config) (before : List Call) (call : Call),
      call.Answers config.strictBindings
        (((CalculatorOver.ofConfig config : CalculatorOver σ).run before).step call).1) ∧
    (∀ (config : Config) (cacheCapacity : Nat) (foldConstants : Bool) (before before' : List Call)
      (call : Call),
      let other := { config with cacheCapacity, foldConstants }
      (((CalculatorOver.ofConfig config : CalculatorOver σ).run before).step call).1.Agrees
        (((CalculatorOver.ofConfig other : CalculatorOver σ).run before').step call).1) := by
  refine ⟨CalculatorOver.answers_run_ofConfig, ?_⟩
  intro config cacheCapacity foldConstants before before' call other
  have hanswers := CalculatorOver.answers_run_ofConfig (σ := σ) config before call
  -- Both runs answer the call by the same rule, and the rule leaves no choice.
  have hanswers' := CalculatorOver.answers_run_ofConfig (σ := σ) other before' call
  exact hanswers.agrees hanswers'

/-- A program that is remembered in a list, the evaluation of which has failed before, answers like
one that is compiled without a cache and without folding. -/
theorem answers_after_any_run_of_remembered :
    let calls : List Call := [.compile "1 + 2 / 0", .calculate "1 + 2 / 0" ∅, .compile "("]
    let remembering : Calculator := (CalculatorOver.ofConfig { cacheCapacity := 1 }).run calls
    let forgetful : Calculator :=
      CalculatorOver.ofConfig { cacheCapacity := 0, foldConstants := false }
    LawfulCache (RecencyList String Program) String Program ∧
      (remembering.compile "1 + 2 / 0").1.hit = true ∧ forgetful.cache.isNone = true ∧
      (Call.calculate "1 + 2 / 0" ∅).Answers false
        (remembering.step (.calculate "1 + 2 / 0" ∅)).1 ∧
      (remembering.step (.calculate "1 + 2 / 0" ∅)).1.Agrees
        (forgetful.step (.calculate "1 + 2 / 0" ∅)).1 := by
  intro calls remembering forgetful
  obtain ⟨hanswers, hagrees⟩ := answers_after_any_run (RecencyList String Program)
  refine ⟨inferInstance, by decide +kernel, rfl, ?_, ?_⟩
  · exact hanswers { cacheCapacity := 1 } calls (.calculate "1 + 2 / 0" ∅)
  · exact hagrees { cacheCapacity := 1 } 0 false calls [] (.calculate "1 + 2 / 0" ∅)

end Abacus
