import Abacus.Calculator.Cache
import Abacus.Program

/-!
# Calculators

A calculator compiles texts and remembers the programs of those it was asked for last, so that a
text that comes again is not read again.  A text that is no expression is not remembered; one whose
evaluation fails is.  What remembers the programs may be any cache, and without room for programs
there is none.

## Main definitions

* `Config` — the settings.
* `CalculatorOver` — the settings and the cache of the programs remembered.
* `Calculator` — a calculator with a list as its cache.
* `Compilation` — what comes of asking for a program, and how it was come by.
* `CalculatorOver.find`, `CalculatorOver.remember` — what a calculator does with its cache.
* `CalculatorOver.compile`, `CalculatorOver.calculate`, `CalculatorOver.clear` — the operations.
-/

namespace Abacus

/-- The settings of a calculator. -/
structure Config where
  /-- The number of programs remembered; none are with zero. -/
  cacheCapacity : Nat := 128
  /-- Whether constants are folded. -/
  foldConstants : Bool := true
  /-- Whether a name that is given a value has to occur in the expression. -/
  strictBindings : Bool := false
  deriving DecidableEq, Repr

/-- What comes of asking a calculator for a program. -/
structure Compilation where
  /-- The program, or why there is none. -/
  result : Except Error Program
  /-- Whether the program was remembered. -/
  hit : Bool
  /-- The folds that were made for it now. -/
  folds : List Fold

/-- Settings and remembered programs, in a cache of the given kind. -/
structure CalculatorOver (σ : Type) where
  config : Config
  /-- Programs by their exact texts, unless none are to be remembered. -/
  cache : Option σ

namespace CalculatorOver

variable {σ : Type}

/-- Evaluates a program as the settings want it. -/
def evaluate (calculator : CalculatorOver σ) (program : Program) (bindings : Bindings) :
    Except EvalError Number :=
  if calculator.config.strictBindings then program.runStrict bindings
  else program.run bindings

/-- The value that a compilation leads to. -/
def valueOf (calculator : CalculatorOver σ) (compilation : Compilation) (bindings : Bindings) :
    Except Error Number :=
  compilation.result.bind fun program =>
    (calculator.evaluate program bindings).mapError Error.eval

variable [Cache σ String Program]

/-- A calculator that remembers nothing yet. -/
def ofConfig (config : Config) : CalculatorOver σ :=
  ⟨config, (Capacity.ofNat? config.cacheCapacity).map Cache.create⟩

/-- The program that is remembered for a text. -/
def find (calculator : CalculatorOver σ) (text : String) : Option Program × CalculatorOver σ :=
  match calculator.cache with
  | none => (none, calculator)
  | some cache =>
    let (program, cache) := Cache.get cache text
    (program, { calculator with cache := some cache })

/-- Keeps the program of a text. -/
def remember (calculator : CalculatorOver σ) (text : String) (program : Program) :
    CalculatorOver σ :=
  { calculator with cache := calculator.cache.map fun cache => Cache.put cache text program }

/-- The program of a text. -/
def compile (calculator : CalculatorOver σ) (text : String) : Compilation × CalculatorOver σ :=
  match calculator.find text with
  | (some program, calculator) => (⟨.ok program, true, []⟩, calculator)
  | (none, calculator) =>
    match Program.ofText calculator.config.foldConstants text with
    | .error error => (⟨.error error, false, []⟩, calculator)
    | .ok (program, folds) => (⟨.ok program, false, folds⟩, calculator.remember text program)

/-- The value of a text, with the compilation that led to it. -/
def calculate (calculator : CalculatorOver σ) (text : String) (bindings : Bindings) :
    Except Error Number × Compilation × CalculatorOver σ :=
  let (compilation, after) := calculator.compile text
  (calculator.valueOf compilation bindings, compilation, after)

/-- Forgets all programs. -/
def clear (calculator : CalculatorOver σ) : CalculatorOver σ :=
  { calculator with cache := calculator.cache.map Cache.clear }

/-- The number of programs remembered. -/
def cachedCount (calculator : CalculatorOver σ) : Nat := calculator.cache.elim 0 Cache.size

end CalculatorOver

/-- A calculator with a list as its cache. -/
abbrev Calculator := CalculatorOver (RecencyList String Program)

end Abacus
