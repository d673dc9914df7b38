/-!
# The four operators

An expression joins two sides with one of the four operators of arithmetic.  An operator has a
symbol, and the symbols are told apart: reading a symbol back gives its operator.

## Main definitions

* `Operator` — addition, subtraction, multiplication and division.
* `Operator.symbol`, `Operator.ofSymbol?` — the written form and its reader.
* `Operator.ofText` — the same reader, for text that has to be an operator.
-/

namespace Abacus

/-- An arithmetic operator. -/
inductive Operator
  | add
  | subtract
  | multiply
  | divide
  deriving DecidableEq, Repr

/-- The text is not the symbol of any operator. -/
structure UnknownOperator where
  /-- The text that was read. -/
  text : String
  deriving DecidableEq, Repr

/-- What is reported for a text that is no operator. -/
def UnknownOperator.message (error : UnknownOperator) : String :=
  "Unknown operator: " ++ error.text

namespace Operator

/-- The written form of an operator, one character. -/
def symbol : Operator → String
  | add => "+"
  | subtract => "-"
  | multiply => "*"
  | divide => "/"

/-- The operator with a given symbol; the whole text has to be the symbol. -/
def ofSymbol? (text : String) : Option Operator :=
  [add, subtract, multiply, divide].find? (·.symbol == text)

/-- The operator with a given symbol, or the complaint that there is none. -/
def ofText (text : String) : Except UnknownOperator Operator :=
  match ofSymbol? text with
  | some operator => .ok operator
  | none => .error ⟨text⟩

@[simp] theorem ofSymbol?_symbol (operator : Operator) :
    ofSymbol? operator.symbol = some operator := by
  cases operator <;> rfl

end Operator

end Abacus
