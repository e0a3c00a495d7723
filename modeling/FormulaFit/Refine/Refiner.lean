import FormulaFit.Refine.Model

/-!
# Fitting

A refiner is a checked configuration with a way to fill missing values.  It fits a model to raw
texts and training data.
-/

namespace FormulaFit

/-- A configuration with an imputer. -/
structure Refiner where
  config : Config
  imputer : Imputer

namespace Refiner

/-- A refiner that fills missing values with the means of their columns; the only place where a
configuration is refused. -/
def ofConfig (config : Config) : Except Error Refiner := do
  config.validate
  return ⟨config, .columnMean⟩

/-- The refiner with another imputer. -/
def withImputer (r : Refiner) (imputer : Imputer) : Refiner := { r with imputer := imputer }

/-- The training features with missing values filled, and how that was done. -/
def impute (r : Refiner) (x : Matrix Float) : Except Error (Option Imputation × Matrix Float) :=
  if x.hasMissing then do
    let (imputation, filled) ← r.imputer.fit x
    return (some imputation, filled)
  else .ok (none, x)

/-- Fits a model. -/
def fit (r : Refiner) (raw : List String) (x : Matrix Float) (y : List Float) :
    Except Error Model := do
  let (imputation, features) ← r.impute x
  let data ← Dataset.of? features y
  let refinement ← Refinement.refine r.config raw data
  return Model.ofCandidate refinement.winner refinement.summary r.config.divisionPlaceholder
    imputation

/-- The complexity of a model under the configured measure. -/
def complexity (r : Refiner) (m : Model) : Nat := m.expr.complexity r.config.complexityMetric

end Refiner

end FormulaFit
