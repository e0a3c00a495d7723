import FormulaFit.Formula.Printer
import FormulaFit.Program.Compile

/-!
# Prediction

The values of a formula at the rows of a matrix.  A literal needs no compilation, and a formula that
reads no feature is evaluated once for all rows.
-/

namespace FormulaFit
namespace Expr

/-- One value for every row. -/
def evaluate (options : CompileOptions Float) (e : Expr Float) (x : Matrix Float) :
    Except Error (List Float) :=
  match e.constant? with
  | some v => .ok (List.replicate x.rows v)
  | none => do
    let program ← e.compile options
    if program.isInputIndependent then
      match ← program.evaluate (Matrix.replicate 1 x.cols 0) #[] with
      | v :: _ => return List.replicate x.rows v
      | [] => throw (.numericInvalid (.failure (e.display ++ " produced no value")))
    else program.evaluate x #[]

/-- A failure as it is reported for predictions: a fault of the data or of the numbers as it is, and
any other as a fault of the numbers.  A crash is not reported. -/
def asNumericFault : Error → Error
  | .data fault => .data fault
  | .numericInvalid fault => .numericInvalid fault
  | .indexOutside index count => .indexOutside index count
  | e => .numericInvalid (.failure e.message)

/-- One value for every row, with failures as they are reported for predictions. -/
def predict (options : CompileOptions Float) (e : Expr Float) (x : Matrix Float) :
    Except Error (List Float) :=
  (e.evaluate options x).mapError asNumericFault

end Expr
end FormulaFit
