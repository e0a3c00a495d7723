import FormulaFit.Data.LaneSum
import FormulaFit.Data.Matrix

/-!
# Training data

A dataset is a feature matrix with one finite target for every row and at least one row; its type
holds no others.
-/

namespace FormulaFit

/-- Mean squared difference of targets and predictions; undefined if there are none, or not as many
of one as of the other. -/
def meanSquaredError {α : Type} [Scalar α] (targets predictions : List α) : α :=
  if targets.length ≠ predictions.length || targets.isEmpty then 0 / 0
  else laneMean ((List.zipWith (· - ·) targets predictions).map fun r => r * r)

/-- Features with the targets that belong to them. -/
structure Dataset where
  /-- One row for every sample. -/
  features : Matrix Float
  /-- One target for every row. -/
  targets : List Float
  /-- Rows and targets belong together. -/
  rows_eq : features.rows = targets.length
  /-- There is something to fit. -/
  targets_ne_nil : targets ≠ []
  /-- No target is infinite or undefined. -/
  targets_finite : ∀ t ∈ targets, t.isFinite = true

namespace Dataset

/-- Puts features and targets together.  Their numbers are compared first, and then the first target
that is not finite counts. -/
def of? (features : Matrix Float) (targets : List Float) : Except Error Dataset :=
  if hrows : features.rows = targets.length then
    if hne : targets = [] then .error (.data .noRows)
    else if hfinite : ∀ t ∈ targets, t.isFinite = true then
      .ok ⟨features, targets, hrows, hne, hfinite⟩
    else .error (.data (.targetNotFinite (targets.findIdx fun t => !t.isFinite)))
  else .error (.data (.targetCount features.rows targets.length))

/-- Number of samples. -/
def rowCount (d : Dataset) : Nat := d.targets.length

/-- Number of features. -/
def featureCount (d : Dataset) : Nat := d.features.cols

/-- Mean of the targets. -/
def targetMean (d : Dataset) : Float := laneMean d.targets

/-- Mean squared error of predictions. -/
def error (d : Dataset) (predictions : List Float) : Float :=
  meanSquaredError d.targets predictions

end Dataset

end FormulaFit
