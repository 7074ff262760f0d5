import Calculator.CommandLine
import Calculator.Expr
import Calculator.Expr.Descent
import Calculator.Expr.Evaluate
import Calculator.Expr.Meaning
import Calculator.Expr.Parse
import Calculator.Expr.Render
import Calculator.Expr.Safety
import Calculator.Expr.Task
import Calculator.Expr.Text
import Calculator.Function
import Calculator.Location
import Calculator.Main
import Calculator.Memory
import Calculator.Number.Arithmetic
import Calculator.Number.Binary64
import Calculator.Number.Decimal
import Calculator.Number.Elementary
import Calculator.Number.FixedPoint
import Calculator.Number.Power
import Calculator.Number.Root
import Calculator.Number.Rounding
import Calculator.Number.Text
import Calculator.Prompt
import Calculator.Proofs.Composition
import Calculator.Proofs.Expr.Agreement
import Calculator.Proofs.Expr.Canonical
import Calculator.Proofs.Expr.Compound
import Calculator.Proofs.Expr.Depth
import Calculator.Proofs.Expr.Descent
import Calculator.Proofs.Expr.Frame
import Calculator.Proofs.Expr.Grammar
import Calculator.Proofs.Expr.Limit
import Calculator.Proofs.Expr.Locality
import Calculator.Proofs.Expr.NormalForm
import Calculator.Proofs.Expr.Parsing
import Calculator.Proofs.Expr.Points
import Calculator.Proofs.Expr.Reader
import Calculator.Proofs.Expr.Reading
import Calculator.Proofs.Expr.Rendering
import Calculator.Proofs.Expr.RoundTrip
import Calculator.Proofs.Expr.Rules
import Calculator.Proofs.Expr.Run
import Calculator.Proofs.Expr.Scope
import Calculator.Proofs.Expr.Segments
import Calculator.Proofs.Expr.Spelling
import Calculator.Proofs.Expr.Standing
import Calculator.Proofs.Expr.Viable
import Calculator.Proofs.Expr.Writes
import Calculator.Proofs.Location
import Calculator.Proofs.Memory
import Calculator.Proofs.Number.Accuracy
import Calculator.Proofs.Number.Amounts
import Calculator.Proofs.Number.Integers
import Calculator.Proofs.Number.InverseHyperbolic
import Calculator.Proofs.Number.Literals
import Calculator.Proofs.Number.Logarithm
import Calculator.Proofs.Number.Nearest
import Calculator.Proofs.Number.Plain
import Calculator.Proofs.Number.Power
import Calculator.Proofs.Number.ReadBack
import Calculator.Proofs.Number.Reciprocal
import Calculator.Proofs.Number.Remainder
import Calculator.Proofs.Number.Rounding
import Calculator.Proofs.Number.Shortest
import Calculator.Proofs.Number.SquareRoot
import Calculator.Proofs.Prompt
import Calculator.Proofs.Session
import Calculator.Proofs.Settings
import Calculator.Proofs.Token.Forms
import Calculator.Proofs.Token.Layout
import Calculator.Proofs.Token.Lexemes
import Calculator.Proofs.Token.Seams
import Calculator.Proofs.Token.Spans
import Calculator.Proofs.Toml.Value
import Calculator.Session
import Calculator.Settings
import Calculator.Text.Blank
import Calculator.Text.Printable
import Calculator.Text.Quoted
import Calculator.Token
import Calculator.Token.Scan
import Calculator.Toml.Document
import Calculator.Toml.Scalar
import Calculator.Toml.Value
