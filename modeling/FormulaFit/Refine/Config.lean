import FormulaFit.Data.Matrix
import FormulaFit.Json.Reader

/-!
# Configuration

Everything that steers a refinement is a field with a default.  A configuration is read from a
closed record, so that a misspelt field is refused, and its values are checked once, before any work
is done.
-/

namespace FormulaFit

/-- How the complexity of a formula is measured. -/
inductive ComplexityMetric where
  | nodeCount
deriving DecidableEq, Repr

namespace ComplexityMetric

/-- Every measure. -/
def all : List ComplexityMetric := [nodeCount]

/-- Name in stored data. -/
def name : ComplexityMetric → String
  | nodeCount => "node_count"

/-- The measure with a name. -/
def ofName? (name : String) : Except Error ComplexityMetric :=
  match all.find? fun m => m.name == name with
  | some m => .ok m
  | none => .error (.config (.unknownMetric name))

end ComplexityMetric

/-- The complexity of a formula. -/
def Expr.complexity {α : Type} (metric : ComplexityMetric) (e : Expr α) : Nat :=
  match metric with
  | .nodeCount => e.nodeCount.toNat

/-- What makes one candidate better than another. -/
inductive Criterion (α : Type) where
  | minError
  /-- The higher score, which weighs simplicity by `rci` and accuracy by the rest. -/
  | weighted (rci : α)
deriving DecidableEq, Repr

/-- Everything that steers a refinement. -/
structure Config where
  /-- Weight of simplicity against accuracy; without one, only accuracy counts. -/
  rci : Option Float := none
  /-- Constants are optimized. -/
  finetune : Bool := false
  /-- Optimizer iterations shared by all candidates. -/
  finetuneMaxEvals : Option UInt64 := none
  /-- Optimizer iterations of one candidate where they are not shared. -/
  finetuneSteps : UInt64 := 100
  complexityMetric : ComplexityMetric := .nodeCount
  /-- Time limit of the simplifications of one formula, in milliseconds. -/
  simplifyTimeoutMs : UInt64 := 5000
  /-- Time limit of a compilation, in milliseconds. -/
  compileTimeoutMs : UInt64 := 5000
  /-- Time limit of the optimization of one formula, in milliseconds. -/
  finetuneTimeoutMs : UInt64 := 10000
  learningRate : Float := 1
  /-- Change of loss or coefficients that ends an optimization. -/
  toleranceChange : Float := 1e-9
  /-- Gradient that ends an optimization. -/
  toleranceGrad : Float := 1e-9
  historySize : UInt64 := 100
  /-- Largest offset that moves equal constants apart. -/
  perturbationScale : Float := 1e-5
  /-- Number of rows up to which constants are optimized. -/
  maxFinetuneRows : UInt64 := 10000
  /-- Literal that replaces a degenerate part. -/
  degeneratePlaceholder : Float := 1
  /-- Value of a division by zero. -/
  divisionPlaceholder : Float := 1
  /-- Candidates are refined side by side, so that none can use what another leaves. -/
  parallel : Bool := false
  /-- Seed of all random draws; without one it is zero. -/
  randomState : Option UInt64 := none
deriving DecidableEq, Repr

namespace Config

/-- A field that has to be zero or more. -/
def checkNonNegative (field : String) (v : Float) : Except Error Unit :=
  if v.isFinite && decide (0 ≤ v) then .ok () else .error (.config (.negative field v))

/-- A field that has to be finite. -/
def checkFinite (field : String) (v : Float) : Except Error Unit :=
  if v.isFinite then .ok () else .error (.config (.notFinite field v))

/-- A weight of simplicity lies between zero and one. -/
def isWeight (rci : Float) : Bool := decide (0 ≤ rci) && decide (rci ≤ 1)

/-- Accepts values that make sense, and names the first that does not. -/
def validate (c : Config) : Except Error Unit := do
  if let some rci := c.rci then
    if !isWeight rci then throw (.config (.weightOutside rci))
  if !(c.learningRate.isFinite && decide (0 < c.learningRate)) then
    throw (.config (.notPositive "learning_rate" c.learningRate))
  checkNonNegative "tolerance_change" c.toleranceChange
  checkNonNegative "tolerance_grad" c.toleranceGrad
  checkNonNegative "perturbation_scale" c.perturbationScale
  checkFinite "degenerate_placeholder" c.degeneratePlaceholder
  checkFinite "division_placeholder" c.divisionPlaceholder
  if c.historySize = 0 then throw (.config .noHistory)

/-- The configuration with a weight of simplicity against accuracy. -/
def withRci (c : Config) (rci : Float) : Config := { c with rci := some rci }

/-- The configuration with constants optimized, on a shared budget if there is one. -/
def withFinetune (c : Config) (maxEvals : Option UInt64) : Config :=
  { c with finetune := true, finetuneMaxEvals := maxEvals }

/-- The configuration with candidates refined side by side or in turn. -/
def withParallel (c : Config) (parallel : Bool) : Config := { c with parallel := parallel }

/-- The configuration with a seed of all random draws. -/
def withRandomState (c : Config) (seed : UInt64) : Config := { c with randomState := some seed }

/-- What makes a candidate better under the configuration. -/
def criterion (c : Config) : Criterion Float :=
  match c.rci with
  | some rci => .weighted rci
  | none => .minError

/-- The names of the fields in stored data, in order. -/
def fieldNames : List String :=
  ["rci", "finetune", "finetune_max_evals", "finetune_steps", "complexity_metric",
    "simplify_timeout_ms", "compile_timeout_ms", "finetune_timeout_ms", "learning_rate",
    "tolerance_change", "tolerance_grad", "history_size", "perturbation_scale",
    "max_finetune_rows", "degenerate_placeholder", "division_placeholder", "parallel",
    "random_state"]

/-- Reads a measure of complexity. -/
def metric? (j : Json) : Option ComplexityMetric := do
  let name ← j.tag?
  ComplexityMetric.all.find? fun m => m.name == name

/-- The value of a field, or its default if it is missing. -/
def fieldOr {α : Type} (read? : Json → Option α) (default : α) : Option Json → Option α
  | some j => read? j
  | none => some default

/-- Reads a configuration without checking its values. -/
def ofJson? (j : Json) : Option Config := do
  let d : Config := {}
  match ← j.record? true fieldNames with
  | [rci, finetune, maxEvals, steps, metric, simplifyMs, compileMs, finetuneMs, rate, change, grad,
      history, scale, maxRows, degenerate, division, parallel, seed] =>
    return {
      rci := ← fieldOr (Json.optional? Json.float?) d.rci rci
      finetune := ← fieldOr Json.bool? d.finetune finetune
      finetuneMaxEvals := ← fieldOr (Json.optional? Json.word?) d.finetuneMaxEvals maxEvals
      finetuneSteps := ← fieldOr Json.word? d.finetuneSteps steps
      complexityMetric := ← fieldOr metric? d.complexityMetric metric
      simplifyTimeoutMs := ← fieldOr Json.word? d.simplifyTimeoutMs simplifyMs
      compileTimeoutMs := ← fieldOr Json.word? d.compileTimeoutMs compileMs
      finetuneTimeoutMs := ← fieldOr Json.word? d.finetuneTimeoutMs finetuneMs
      learningRate := ← fieldOr Json.float? d.learningRate rate
      toleranceChange := ← fieldOr Json.float? d.toleranceChange change
      toleranceGrad := ← fieldOr Json.float? d.toleranceGrad grad
      historySize := ← fieldOr Json.word? d.historySize history
      perturbationScale := ← fieldOr Json.float? d.perturbationScale scale
      maxFinetuneRows := ← fieldOr Json.word? d.maxFinetuneRows maxRows
      degeneratePlaceholder := ← fieldOr Json.float? d.degeneratePlaceholder degenerate
      divisionPlaceholder := ← fieldOr Json.float? d.divisionPlaceholder division
      parallel := ← fieldOr Json.bool? d.parallel parallel
      randomState := ← fieldOr (Json.optional? Json.word?) d.randomState seed }
  | _ => none

/-- Reads a configuration without checking its values. -/
def read (j : Json) : Except Error Config :=
  match ofJson? j with
  | some c => .ok c
  | none => .error (.config .malformed)

/-- Reads a configuration and checks its values. -/
def ofJson (j : Json) : Except Error Config := do
  let c ← read j
  c.validate
  return c

/-- Reads a configuration from a JSON text and checks its values. -/
def ofText (text : String) : Except Error Config :=
  match Json.parse? text with
  | some j => ofJson j
  | none => .error (.config .malformed)

end Config

end FormulaFit
