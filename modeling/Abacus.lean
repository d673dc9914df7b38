import Abacus.Calculator.Basic
import Abacus.Proofs.Grammar.Derivation
import Abacus.Proofs.Grammar.Completeness
import Abacus.Proofs.Grammar.Soundness
import Abacus.Proofs.Grammar.Acceptance
import Abacus.Proofs.Binary64.ReadingBack
import Abacus.Proofs.Binary64.Patterns
import Abacus.Proofs.Program.Compilation
import Abacus.Proofs.Program.UnknownNames
import Abacus.Proofs.Calculator.Runs
import Abacus.Proofs.Calculator.Transparency
import Abacus.Proofs.Calculator.Recency
import Abacus.Proofs.Decimal.PositionalForm
import Abacus.Proofs.Number.ReadingBack
import Abacus.Proofs.Expr.Rendering
import Abacus.Proofs.Expr.RoundTrip
import Abacus.Proofs.Token.Tiling
import Abacus.Proofs.Token.Lexing
import Abacus.Proofs.Token.FirstFaults
import Abacus.Proofs.Token.Spacing
import Abacus.Proofs.Expr.Descending
import Abacus.Proofs.Expr.Buffering
import Abacus.Proofs.Expr.Resumption
import Abacus.Proofs.Expr.Blanks
import Abacus.Proofs.Token.Lockstep
import Abacus.Proofs.Expr.EarliestErrors
import Abacus.Proofs.Number.Opposites
import Abacus.Proofs.Expr.Bounds
import Abacus.Proofs.Expr.Substitution
import Abacus.Proofs.Expr.IntegerValues
import Abacus.Proofs.Program.ReadNames
import Abacus.Proofs.Program.Folding
import Abacus.Proofs.Program.StrictRuns
import Abacus.Proofs.Program.Composition
import Abacus.Proofs.Grammar.Crossings
import Abacus.Proofs.Expr.Limits
import Abacus.Proofs.Expr.Kinds
import Abacus.Proofs.Binary64.Nearest
import Abacus.Proofs.Expr.References
import Abacus.Proofs.Decimal.Magnitudes
import Abacus.Proofs.Number.Literals
import Abacus.Proofs.Token.NumberRuns
import Abacus.Proofs.Binary64.ExactValues
import Abacus.Proofs.Number.Comparison
import Abacus.Proofs.Text.CursorRuns
