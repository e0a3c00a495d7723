import FormulaFit.Data.Dataset
import FormulaFit.Expr.Sanitize
import FormulaFit.Optimize.Lbfgs
import FormulaFit.Optimize.Lift
import FormulaFit.Program.Compile
import FormulaFit.Program.Gradient
import FormulaFit.Refine.Config

/-!
# Fine-tuning

The constants of a formula are lifted, optimized against the training error and put back.  The run
of the optimizer is a list of iterates, each evaluated once; the first one with the least loss is
put back.  Whatever goes wrong on the way leaves the formula as it was, and so does a result that is
not better; only a crash gets through, and settings that ask for offsets that cannot be drawn or for
a history that there is no room for.
-/

namespace FormulaFit
namespace Finetune

/-- How constants are optimized. -/
structure Settings where
  /-- How the minimiser works. -/
  lbfgs : Lbfgs.Settings Float
  /-- Largest offset that moves equal constants apart. -/
  perturbationScale : Float
  /-- Time limit in milliseconds. -/
  timeoutMs : Nat
  /-- How formulas are compiled. -/
  compile : CompileOptions Float
  /-- How the result is repaired. -/
  sanitize : SanitizePolicy
deriving DecidableEq, Repr

/-- Why an optimization ended the way it did. -/
inductive Status where
  | tuned
  /-- There is nothing to optimize: no free constants or no variables. -/
  | noParameters
  | compileFailed
  /-- The loss or its gradient became infinite or undefined. -/
  | numericFailure
  | notImproved
deriving DecidableEq, Repr

/-- The result of an optimization. -/
structure Outcome where
  expr : Expr Float
  /-- Optimizer iterations used, those of a failed run included. -/
  steps : Nat
  status : Status
deriving DecidableEq, Repr

/-- Coefficients that were evaluated, with their loss. -/
structure Iterate where
  loss : Float
  params : List Float
deriving DecidableEq, Repr

/-- A run of the optimizer. -/
structure Descent where
  /-- The iterates in order. -/
  iterates : List Iterate
  /-- One more evaluation gave no finite loss or gradient. -/
  failed : Bool
deriving DecidableEq, Repr

namespace Descent

/-- Number of evaluations. -/
def steps (d : Descent) : Nat := d.iterates.length + if d.failed then 1 else 0

/-- The run with an iterate before it. -/
def after (i : Iterate) (d : Descent) : Descent := ⟨i :: d.iterates, d.failed⟩

/-- The first iterate with the least loss. -/
def best? (d : Descent) : Option Iterate :=
  d.iterates.foldl
    (fun best i =>
      match best with
      | none => some i
      | some b => if i.loss < b.loss then some i else some b)
    none

end Descent

/-- A finite loss and gradient at coefficients. -/
def evaluate? (program : Program Float) (data : Dataset) (params : List Float) :
    Except Error (Option (Float × List Float)) := do
  match ← Error.absorb (program.lossAndGradient data.features data.targets params.toArray) with
  | some (loss, gradient) =>
    return if loss.isFinite && gradient.all Float.isFinite then some (loss, gradient) else none
  | none => return none

/-- Runs the optimizer for a number of steps at most.  It stops early when time is up, when the loss
hardly changes and when the minimiser has converged. -/
def descend (settings : Settings) (program : Program Float) (data : Dataset) :
    (steps : Nat) → Lbfgs.State Float → (params : List Float) → (lastLoss : Float) →
      Except Error Descent
  | 0, _, _, _ => return ⟨[], false⟩
  | steps + 1, state, params, lastLoss =>
    if Deadline.expired ⟨.finetune, settings.timeoutMs⟩ then return ⟨[], false⟩
    else do
      match ← evaluate? program data params with
      | none => return ⟨[], true⟩
      | some (loss, gradient) =>
        if (loss - lastLoss).abs < settings.lbfgs.toleranceChange then
          return ⟨[⟨loss, params⟩], false⟩
        else
          match state.step settings.lbfgs params gradient with
          | (_, _, .converged) => return ⟨[⟨loss, params⟩], false⟩
          | (state, next, .moved) =>
            let rest ← descend settings program data steps state next loss
            return rest.after ⟨loss, params⟩

/-- Training error of a formula without coefficients; undefined if it cannot be evaluated. -/
def trainingError (options : CompileOptions Float) (data : Dataset) (e : Expr Float) :
    Except Error Float := do
  let predictions? ← Error.absorb do
    let program ← e.compile options
    program.evaluate data.features #[]
  return match predictions? with
    | some predictions => data.error predictions
    | none => 0 / 0

/-- The error after an optimization counts as better than the one before. -/
def isImprovement (before after : Float) : Bool :=
  after.isFinite && !(before.isFinite && decide (before < after))

/-- The outcome of a run from a lifted formula. -/
def conclude (settings : Settings) (data : Dataset) (e lifted : Expr Float) (d : Descent) :
    Except Error Outcome := do
  if d.failed then return ⟨e, d.steps, .numericFailure⟩
  match d.best? with
  | none => return ⟨e, d.steps, .notImproved⟩
  | some best =>
    match (lifted.insertParams best.params).sanitize settings.sanitize with
    | .error _ => return ⟨e, d.steps, .numericFailure⟩
    | .ok tuned =>
      let before ← trainingError settings.compile data e
      let after ← trainingError settings.compile data tuned
      return if isImprovement before after then ⟨tuned, d.steps, .tuned⟩
        else ⟨e, d.steps, .notImproved⟩

/-- Optimizes the constants of a formula for a number of steps at most.  Offsets are drawn as soon
as the constants are lifted, and room for the history is reserved once the lifted formula
compiles. -/
def finetune {σ : Type} [WordSource σ] (settings : Settings) (data : Dataset) (maxSteps : Nat)
    (e : Expr Float) (source : σ) : Except Error Outcome :=
  if e.features.isEmpty then .ok ⟨e, 0, .noParameters⟩
  else if 0 < e.paramCount then .ok ⟨e, 0, .compileFailed⟩
  else
    match e.lift? settings.perturbationScale source with
    | none => .error (.internal "offset range overflow")
    | some ((lifted, initial), _) =>
      if initial.isEmpty then .ok ⟨e, 0, .noParameters⟩
      else
        match lifted.compile settings.compile with
        | .error _ => .ok ⟨e, 0, .compileFailed⟩
        | .ok program =>
          if !settings.lbfgs.hasRoom then .error (.internal "history capacity overflow")
          else do
            let d ← descend settings program data maxSteps .start initial Scalar.posInf
            conclude settings data e lifted d

end Finetune

namespace Config

/-- How the configuration has formulas repaired. -/
def sanitizePolicy (c : Config) : SanitizePolicy :=
  ⟨c.simplifyTimeoutMs.toNat, c.degeneratePlaceholder⟩

/-- How the configuration has formulas compiled for data of a width. -/
def compileOptions (c : Config) (featureCount : Nat) : CompileOptions Float :=
  ⟨featureCount, c.compileTimeoutMs.toNat, c.divisionPlaceholder⟩

/-- How the configuration has constants optimized for data of a width. -/
def finetuneSettings (c : Config) (featureCount : Nat) : Finetune.Settings where
  lbfgs := ⟨c.learningRate, c.toleranceGrad, c.toleranceChange, c.historySize.toNat⟩
  perturbationScale := c.perturbationScale
  timeoutMs := c.finetuneTimeoutMs.toNat
  compile := c.compileOptions featureCount
  sanitize := c.sanitizePolicy

end Config

end FormulaFit
