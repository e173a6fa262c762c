import ArithTree.Arithmetic
import ArithTree.CommandLine
import ArithTree.CommandLine.Arg
import ArithTree.CommandLine.Request
import ArithTree.Convert
import ArithTree.Decimal
import ArithTree.Expr
import ArithTree.Expr.Parser
import ArithTree.Expr.Printer
import ArithTree.Fault
import ArithTree.Limits
import ArithTree.Log
import ArithTree.Main
import ArithTree.Numeral
import ArithTree.Op
import ArithTree.Simplify
import ArithTree.Simplify.Chain
import ArithTree.Simplify.Pass
import ArithTree.Simplify.Reading
import ArithTree.Simplify.Rule
import ArithTree.Simplify.Weight
import ArithTree.StackCode
import ArithTree.StackCode.OfTokens
import ArithTree.Text.Blank
import ArithTree.Text.Digit
import ArithTree.Text.Lines
import ArithTree.Text.Printable
import ArithTree.Text.Quoted
import ArithTree.Token
import ArithTree.Proofs.Simplify.Rewrites
import ArithTree.Proofs.Simplify.Collected
import ArithTree.Proofs.Value.Chain
import ArithTree.Proofs.Value.Quotient
import ArithTree.Proofs.Simplify.Iteration
import ArithTree.Proofs.StackCode.Steps
import ArithTree.Proofs.Reading.Simulation
import ArithTree.Proofs.Value.Preserved
import ArithTree.Proofs.Simplify.Potential
import ArithTree.Proofs.Simplify.NormalForm
import ArithTree.Proofs.Simplify.FixedPoint
import ArithTree.Proofs.Simplify.Convergence
import ArithTree.Proofs.Reading.Rendering
import ArithTree.Proofs.Value.Ratio
import ArithTree.Proofs.Value.Interpretation
import ArithTree.Proofs.Value.Undefined
import ArithTree.Proofs.Reading.Sentences
import ArithTree.Proofs.Reading.Written
import ArithTree.Proofs.Simplify.Several
import ArithTree.Proofs.Simplify.Leaves
import ArithTree.Proofs.Simplify.Bulk
import ArithTree.Proofs.Simplify.Overlong
import ArithTree.Proofs.Reading.Printed
import ArithTree.Proofs.Simplify.Cost
import ArithTree.Proofs.Simplify.Idempotence
import ArithTree.Proofs.Simplify.Cascade
import ArithTree.Proofs.Reading.Folding
import ArithTree.Proofs.Simplify.Faults
import ArithTree.Proofs.Polynomial.Evaluation
import ArithTree.Proofs.Polynomial.Form
import ArithTree.Proofs.Polynomial.Strategies
import ArithTree.Proofs.Reading.Parentheses
import ArithTree.Proofs.Reading.Conservation
import ArithTree.Proofs.Printing.Readability
import ArithTree.Proofs.Printing.Conversion
import ArithTree.Proofs.Simplify.Stopping
import ArithTree.Proofs.Simplify.Relabelling
import ArithTree.Proofs.Simplify.Spelling
import ArithTree.Proofs.Simplify.Renaming
import ArithTree.Proofs.Simplify.Bracketing
import ArithTree.Proofs.Simplify.Incremental
import ArithTree.Proofs.Reading.Scanning
import ArithTree.Proofs.Simplify.Differences
import ArithTree.Proofs.StackCode.History
import ArithTree.Proofs.Simplify.Computed
import ArithTree.Proofs.Value.LowestTerms
