import Abacus.Expr.Code
import Abacus.Expr.Parser

/-!
# Programs

A program is an expression made ready to be evaluated many times.  It keeps the text and the names
of the expression it was made of, whatever was folded in it.

## Main definitions

* `Program` — the text, the names, and the code.
* `Program.ofExpr`, `Program.ofText` — compilation, with the folds that it made.
* `Program.run`, `Program.runStrict` — evaluation, and the one that accepts no other names than
  those of the expression.
* `calculate` — the value of a text.
-/

namespace Abacus

/-- An expression that is ready to be evaluated. -/
structure Program where
  /-- The text of the expression. -/
  text : String
  /-- The names that have to be given values. -/
  references : List String
  /-- What is run. -/
  code : Code

namespace Program

/-- The program of an expression, and the folds that were made if `folding` is wanted. -/
def ofExpr (folding : Bool) (e : Expr) : Program × List Fold :=
  let compiled := e.compile folding
  (⟨e.text, e.references, compiled.1⟩, compiled.2)

/-- The program of a text. -/
def ofText (folding : Bool) (text : String) : Except Error (Program × List Fold) :=
  (Expr.parse text).map (ofExpr folding)

/-- The value of the program; names that it does not have are ignored. -/
def run (program : Program) (bindings : Bindings) : Except EvalError Number :=
  program.code.run bindings

/-- The least name with a value that is no name of the program. -/
def unknownName? (program : Program) (bindings : Bindings) : Option String :=
  bindings.keys.find? fun name => !program.references.contains name

/-- The value of the program, unless a name is given a value that the program does not have. -/
def runStrict (program : Program) (bindings : Bindings) : Except EvalError Number :=
  match program.unknownName? bindings with
  | some name => .error (.unknownBinding name)
  | none => program.run bindings

/-- A description of the program: its text and its names in quotes, but not its inside. -/
def describe (program : Program) : String :=
  "CompiledExpression \x7b source: \"" ++ program.text ++ "\", references: ["
    ++ ", ".intercalate (program.references.map fun name => "\"" ++ name ++ "\"") ++ "], .. \x7d"

end Program

/-- The value of a text. -/
def calculate (text : String) (bindings : Bindings) : Except Error Number :=
  (Expr.parse text).bind fun e => (e.evaluate bindings).mapError Error.eval

end Abacus
