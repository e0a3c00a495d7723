import FormulaFit.Data.Matrix

/-!
# Imputation

Missing values are filled before a fit, and in the same way before every prediction of its model: an
imputer learns from the training features how to fill, and the fitted imputation is replayed.  The
imputer of the library fills every missing value with the mean of those observed in its column.
-/

namespace FormulaFit

/-- A fitted imputation. -/
structure Imputation where
  /-- Fills the missing values of a matrix. -/
  apply : Matrix Float → Except Error (Matrix Float)

/-- A way to learn an imputation. -/
structure Imputer where
  /-- Learns from training features and fills them. -/
  fit : Matrix Float → Except Error (Imputation × Matrix Float)

/-- Mean of the observed values of a column; zero if there are none. -/
def observedMean {α : Type} [Scalar α] (column : List α) : α :=
  let observed := column.filter fun v => !Scalar.isNaN v
  if observed.isEmpty then 0 else Scalar.sum observed / Scalar.ofNat observed.length

/-- The mean of every column. -/
def Matrix.columnMeans {α : Type} [Scalar α] (m : Matrix α) : List α :=
  m.columnList.map observedMean

/-- Fills the missing values of each column with its mean; the width must be that of the means. -/
def Matrix.fill {α : Type} [Scalar α] (means : List α) (m : Matrix α) :
    Except Error (Matrix α) :=
  if m.cols ≠ means.length then .error (.data (.imputerWidth means.length m.cols))
  else .ok (m.mapColumns fun j v => if Scalar.isNaN v then means.getD j v else v)

namespace Imputer

/-- Fills every missing value with the mean of its column in the training features. -/
def columnMean : Imputer where
  fit m := do
    let imputation : Imputation := ⟨Matrix.fill m.columnMeans⟩
    return (imputation, ← imputation.apply m)

/-- Fills every missing value with the same value. -/
def constant (v : Float) : Imputer where
  fit m := do
    let imputation : Imputation := ⟨fun m => .ok (m.mapColumns fun _ w => if w.isNaN then v else w)⟩
    return (imputation, ← imputation.apply m)

end Imputer

end FormulaFit
