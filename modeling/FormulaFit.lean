import FormulaFit.Data.Dataset
import FormulaFit.Data.Imputer
import FormulaFit.Data.LaneSum
import FormulaFit.Data.Matrix
import FormulaFit.Deadline
import FormulaFit.Decimal.Basic
import FormulaFit.Decimal.Layout
import FormulaFit.Decimal.Reader
import FormulaFit.Decimal.Scaling
import FormulaFit.Decimal.Shortest
import FormulaFit.Double
import FormulaFit.Error
import FormulaFit.Expr.Basic
import FormulaFit.Expr.Json
import FormulaFit.Expr.Sanitize
import FormulaFit.Expr.Simplify
import FormulaFit.Expr.Validity
import FormulaFit.Formula.Lexeme
import FormulaFit.Formula.Parser
import FormulaFit.Formula.Printer
import FormulaFit.Json.Basic
import FormulaFit.Json.Reader
import FormulaFit.Json.Writer
import FormulaFit.Node
import FormulaFit.Operator
import FormulaFit.Optimize.Budget
import FormulaFit.Optimize.Finetune
import FormulaFit.Optimize.Lbfgs
import FormulaFit.Optimize.Lift
import FormulaFit.Program.Basic
import FormulaFit.Program.Compile
import FormulaFit.Program.Gradient
import FormulaFit.Proofs.Arena.Compactness
import FormulaFit.Proofs.Arena.Layout
import FormulaFit.Proofs.Arena.Occurrence
import FormulaFit.Proofs.Arena.Sharing
import FormulaFit.Proofs.Arena.Storage
import FormulaFit.Proofs.Arena.TreeSize
import FormulaFit.Proofs.Arena.Trees
import FormulaFit.Proofs.Arena.Unfolding
import FormulaFit.Proofs.Arena.Walks
import FormulaFit.Proofs.Data.Imputation
import FormulaFit.Proofs.Decimal.Numerals
import FormulaFit.Proofs.Decimal.Rounding
import FormulaFit.Proofs.Decimal.Shortest
import FormulaFit.Proofs.Formula.Adoption
import FormulaFit.Proofs.Formula.CheckedParsing
import FormulaFit.Proofs.Formula.Culprits
import FormulaFit.Proofs.Formula.Forests
import FormulaFit.Proofs.Formula.Grammar
import FormulaFit.Proofs.Formula.Language
import FormulaFit.Proofs.Formula.Pieces
import FormulaFit.Proofs.Formula.Printable
import FormulaFit.Proofs.Formula.Printing
import FormulaFit.Proofs.Formula.ReadBack
import FormulaFit.Proofs.Formula.Reading
import FormulaFit.Proofs.Formula.Scanning
import FormulaFit.Proofs.Formula.Spelling
import FormulaFit.Proofs.Formula.TermReaders
import FormulaFit.Proofs.Formula.Terms
import FormulaFit.Proofs.Formula.Vocabulary
import FormulaFit.Proofs.Json.Numbers
import FormulaFit.Proofs.Json.Records
import FormulaFit.Proofs.Json.Text
import FormulaFit.Proofs.Optimize.Budgets
import FormulaFit.Proofs.Optimize.Contract
import FormulaFit.Proofs.Optimize.Displacement
import FormulaFit.Proofs.Optimize.Finetuning
import FormulaFit.Proofs.Optimize.History
import FormulaFit.Proofs.Optimize.Iterates
import FormulaFit.Proofs.Optimize.Lifting
import FormulaFit.Proofs.Optimize.Outcomes
import FormulaFit.Proofs.Optimize.Parametrization
import FormulaFit.Proofs.Optimize.QuasiNewton
import FormulaFit.Proofs.Optimize.Restoration
import FormulaFit.Proofs.Optimize.Vectors
import FormulaFit.Proofs.Program.Coefficients
import FormulaFit.Proofs.Program.Compilation
import FormulaFit.Proofs.Program.Differentiation
import FormulaFit.Proofs.Program.ForwardMode
import FormulaFit.Proofs.Program.Prediction
import FormulaFit.Proofs.Program.ReverseMode
import FormulaFit.Proofs.Program.RowLocality
import FormulaFit.Proofs.Program.Shortcuts
import FormulaFit.Proofs.Program.Slots
import FormulaFit.Proofs.Random.Sampling
import FormulaFit.Proofs.Refine.Accounting
import FormulaFit.Proofs.Refine.Fitting
import FormulaFit.Proofs.Refine.Improvement
import FormulaFit.Proofs.Refine.Independence
import FormulaFit.Proofs.Refine.Persistence
import FormulaFit.Proofs.Refine.Requests
import FormulaFit.Proofs.Refine.Scoring
import FormulaFit.Proofs.Refine.Spending
import FormulaFit.Proofs.Refine.Stages
import FormulaFit.Proofs.Refine.Usability
import FormulaFit.Proofs.Rewriting.Closure
import FormulaFit.Proofs.Rewriting.Confinement
import FormulaFit.Proofs.Rewriting.Idempotence
import FormulaFit.Proofs.Rewriting.Leftovers
import FormulaFit.Proofs.Rewriting.NormalForm
import FormulaFit.Proofs.Rewriting.Repair
import FormulaFit.Proofs.Rewriting.Rules
import FormulaFit.Proofs.Rewriting.Sanitization
import FormulaFit.Proofs.Rewriting.Simplification
import FormulaFit.Proofs.Scalar.Doubles
import FormulaFit.Proofs.Scalar.Exact
import FormulaFit.Proofs.Scalar.Nearest
import FormulaFit.Proofs.Scalar.Order
import FormulaFit.Proofs.Scalar.Words
import FormulaFit.Proofs.Selection.Arrangement
import FormulaFit.Proofs.Selection.Normalization
import FormulaFit.Proofs.Selection.PureAccuracy
import FormulaFit.Proofs.Selection.Ranking
import FormulaFit.Proofs.Selection.Tradeoff
import FormulaFit.Proofs.Selection.Winners
import FormulaFit.Random.ChaCha
import FormulaFit.Random.Source
import FormulaFit.Refine.Candidate
import FormulaFit.Refine.Config
import FormulaFit.Refine.Model
import FormulaFit.Refine.Pool
import FormulaFit.Refine.Predict
import FormulaFit.Refine.Refiner
import FormulaFit.Refine.Selection
import FormulaFit.Scalar
import FormulaFit.Text.Blank
import FormulaFit.Tree
