import Abacus.Proofs.Calculator.Caches
import Abacus.Proofs.Outcome

/-!
# Runs of a calculator

A calculator is called any number of times; each call is answered and leaves a calculator for the
calls after it.  Whatever was called and whatever cache it has, its settings are the same, and each
program it remembers is the one that compiling its own text under these settings gives.

## Main definitions

* `Call`, `Answer` — what is asked of a calculator and what it answers.
* `CalculatorOver.step`, `CalculatorOver.run` — one call, and one after the other.
* `CalculatorOver.Sound` — the invariant of the remembered programs.

## Main results

* `CalculatorOver.Sound.compile` — a compilation keeps the invariant, and
  `CalculatorOver.result_compile` says what comes of it.
* `CalculatorOver.sound_run` — **the invariant holds after every run**.
-/

namespace Abacus

/-- What is asked of a calculator. -/
inductive Call
  | compile (text : String)
  | calculate (text : String) (bindings : Bindings)
  | clear

/-- What a calculator answers. -/
inductive Answer
  | program (result : Except Error Program)
  | value (result : Except Error Number)
  | cleared

namespace CalculatorOver

variable {σ : Type} [Cache σ String Program]

/-- The answer to a call, and the calculator for the next one. -/
def step (calculator : CalculatorOver σ) : Call → Answer × CalculatorOver σ
  | .compile text =>
    let (compilation, after) := calculator.compile text
    (.program compilation.result, after)
  | .calculate text bindings =>
    let (value, _, after) := calculator.calculate text bindings
    (.value value, after)
  | .clear => (.cleared, calculator.clear)

/-- The calculator that is left when calls are made one after the other. -/
def run (calculator : CalculatorOver σ) (calls : List Call) : CalculatorOver σ :=
  calls.foldl (fun calculator call => (calculator.step call).2) calculator

/-- Every remembered program is the one of its own text. -/
def Sound (calculator : CalculatorOver σ) : Prop :=
  ∀ text program, (text, program) ∈ calculator.entries →
    ∃ e, Expr.parse text = .ok e ∧
      program = (Program.ofExpr calculator.config.foldConstants e).1

variable {calculator : CalculatorOver σ} {text : String}

/-! ### One compilation -/

theorem compile_of_find_eq_some {program : Program} (h : (calculator.find text).1 = some program) :
    calculator.compile text = (⟨.ok program, true, []⟩, (calculator.find text).2) := by
  rw [compile, ← Prod.mk.eta (p := calculator.find text), h]

theorem compile_of_parse_eq_error {error : Error} (h : (calculator.find text).1 = none)
    (hparse : Expr.parse text = .error error) :
    calculator.compile text = (⟨.error error, false, []⟩, (calculator.find text).2) := by
  rw [compile, ← Prod.mk.eta (p := calculator.find text), h]
  simp only [Program.ofText, hparse, Except.map]

theorem compile_of_parse_eq_ok {e : Expr} {program : Program} {folds : List Fold}
    (h : (calculator.find text).1 = none) (hparse : Expr.parse text = .ok e)
    (hprogram : Program.ofExpr calculator.config.foldConstants e = (program, folds)) :
    calculator.compile text
      = (⟨.ok program, false, folds⟩, (calculator.find text).2.remember text program) := by
  rw [compile, ← Prod.mk.eta (p := calculator.find text), h]
  simp only [Program.ofText, config_find, hparse, Except.map, hprogram]

/-- What a look into the cache and remembering a program keep is kept by every compilation. -/
theorem compile_induction {P : CalculatorOver σ → Prop} (hfind : P (calculator.find text).2)
    (hremember : ∀ {looked : CalculatorOver σ} program, P looked →
      P (looked.remember text program)) :
    P (calculator.compile text).2 := by
  -- To compile is to look the text up and to remember at most one program.
  cases hfound : (calculator.find text).1 with
  | some program =>
    rw [compile_of_find_eq_some hfound]
    exact hfind
  | none =>
    cases hparse : Expr.parse text with
    | error error =>
      rw [compile_of_parse_eq_error hfound hparse]
      exact hfind
    | ok e =>
      rw [compile_of_parse_eq_ok hfound hparse rfl]
      exact hremember _ hfind

theorem config_compile (text : String) :
    (calculator.compile text).2.config = calculator.config :=
  compile_induction (P := fun after => after.config = calculator.config)
    (calculator.config_find text) fun _ h => h

theorem config_step (call : Call) : (calculator.step call).2.config = calculator.config := by
  cases call with
  | compile text => exact config_compile text
  | calculate text bindings => exact config_compile text
  | clear => rfl

theorem config_run (calls : List Call) : (calculator.run calls).config = calculator.config := by
  induction calls generalizing calculator with
  | nil => rfl
  | cons call calls ih => exact ih.trans (config_step call)

variable [LawfulCache σ String Program]

theorem room_compile (calculator : CalculatorOver σ) (text : String) :
    (calculator.compile text).2.room = calculator.room :=
  compile_induction (P := fun after => after.room = calculator.room)
    (calculator.room_find text) fun _ h => (room_remember _ _ _).trans h

/-- **What a compilation does.**  A program that is remembered comes to the front.  Otherwise the
text is read: one that cannot be read changes nothing, and of another one the program is remembered
now. -/
theorem compile_cases (calculator : CalculatorOver σ) (text : String) :
    (∃ program, (text, program) ∈ calculator.entries ∧
      (calculator.compile text).1 = ⟨.ok program, true, []⟩ ∧
      (calculator.compile text).2.entries
        = (text, program) :: calculator.entries.filter (·.1 ≠ text)) ∨
    text ∉ calculator.keys ∧
      ((∃ error, Expr.parse text = .error error ∧
        (calculator.compile text).1 = ⟨.error error, false, []⟩ ∧
        (calculator.compile text).2.entries = calculator.entries) ∨
      ∃ e program folds, ∃ looked : CalculatorOver σ, Expr.parse text = .ok e ∧
        Program.ofExpr calculator.config.foldConstants e = (program, folds) ∧
        (calculator.compile text).1 = ⟨.ok program, false, folds⟩ ∧
        looked.entries = calculator.entries ∧ looked.room = calculator.room ∧
        (calculator.compile text).2 = looked.remember text program) := by
  -- The lookup alone reorders the cache; only a text that is new and can be read adds to it.
  rcases calculator.find_cases text with ⟨program, hentry, hfound, hfront⟩ | ⟨hkey, hfound, hsame⟩
  · rw [compile_of_find_eq_some hfound]
    exact .inl ⟨program, hentry, rfl, hfront⟩
  · refine .inr ⟨hkey, ?_⟩
    cases hparse : Expr.parse text with
    | error error =>
      rw [compile_of_parse_eq_error hfound hparse]
      exact .inl ⟨error, rfl, rfl, hsame⟩
    | ok e =>
      rw [compile_of_parse_eq_ok hfound hparse rfl]
      exact .inr ⟨e, _, _, _, rfl, rfl, rfl, hsame, calculator.room_find text, rfl⟩

/-! ### The programs remembered -/

omit [LawfulCache σ String Program] in
theorem sound_of_entries_eq_nil (h : calculator.entries = []) : calculator.Sound := by
  intro text program hmem
  rw [h] at hmem
  exact absurd hmem List.not_mem_nil

theorem sound_ofConfig (config : Config) : (ofConfig config : CalculatorOver σ).Sound :=
  sound_of_entries_eq_nil (entries_ofConfig config)

theorem sound_clear : calculator.clear.Sound := sound_of_entries_eq_nil (entries_clear calculator)

/-- Whether it was remembered or not, a text has the program that compiling it gives. -/
theorem result_compile (h : calculator.Sound) (text : String) :
    (calculator.compile text).1.result
      = (Expr.parse text).map fun e => (Program.ofExpr calculator.config.foldConstants e).1 := by
  rcases calculator.compile_cases text with ⟨program, hentry, hresult, -⟩ |
    ⟨-, ⟨error, hparse, hresult, -⟩ | ⟨e, program, folds, _, hparse, hprogram, hresult, -⟩⟩
  · -- What was remembered is what compiling the text again would give.
    obtain ⟨e, hparse, rfl⟩ := h text program hentry
    rw [hresult, hparse]
    rfl
  · rw [hresult, hparse]
    rfl
  · rw [hresult, hparse]
    show _ = Except.ok (Program.ofExpr _ e).1
    rw [hprogram]

theorem Sound.compile (h : calculator.Sound) (text : String) :
    (calculator.compile text).2.Sound := by
  intro text' program' hmem
  rw [config_compile]
  rcases calculator.compile_cases text with ⟨program, hentry, -, hfront⟩ |
    ⟨hkey, ⟨_, _, _, hsame⟩ | ⟨e, program, folds, looked, hparse, hprogram, _, hlooked, _, hafter⟩⟩
  · -- What came to the front was remembered before, and so was the rest.
    rw [hfront] at hmem
    rcases List.mem_cons.mp hmem with hsame | hrest
    · exact h text' program' (hsame ▸ hentry)
    · exact h text' program' (List.mem_filter.mp hrest).1
  · rw [hsame] at hmem
    exact h text' program' hmem
  · have hkey' : text ∉ looked.keys := by rwa [keys, hlooked]
    rw [hafter] at hmem
    rcases mem_of_mem_remember hkey' hmem with hnew | hold
    · -- The new entry: its text was parsed just now.
      obtain ⟨rfl, rfl⟩ := Prod.mk.inj hnew
      exact ⟨e, hparse, by rw [hprogram]⟩
    · exact h text' program' (hlooked ▸ hold)

theorem Sound.step (h : calculator.Sound) (call : Call) : (calculator.step call).2.Sound := by
  cases call with
  | compile text => exact h.compile text
  | calculate text bindings => exact h.compile text
  | clear => exact sound_clear

/-- **After any run every remembered program is the one of its own text.** -/
theorem sound_run (h : calculator.Sound) (calls : List Call) : (calculator.run calls).Sound := by
  induction calls generalizing calculator with
  | nil => exact h
  | cons call calls ih => exact ih (h.step call)

end CalculatorOver

end Abacus
