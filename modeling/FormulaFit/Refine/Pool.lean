import FormulaFit.Formula.Parser
import FormulaFit.Optimize.Budget
import FormulaFit.Optimize.Finetune
import FormulaFit.Random.ChaCha
import FormulaFit.Refine.Predict
import FormulaFit.Refine.Selection

/-!
# Refinement of a pool

Raw texts are read and repaired, their constants optimized and the results scored, and one of them
is selected.  A text that fails is dropped; a candidate that predicts something infinite or
undefined is replaced by the mean of the targets; and an empty pool gets the mean as its only
candidate.  Every stage counts what becomes of the texts.  Only a mistake in the configuration is an
error, and a crash.
-/

namespace FormulaFit

-- Sums start from the numeral zero, whatever else is imported.
attribute [local instance (high)] Zero.ofOfNat0

/-- What became of the texts of one pool. -/
structure Summary where
  /-- Texts. -/
  raw : Nat
  /-- Texts that are formulas. -/
  parsed : Nat := 0
  sanitized : Nat := 0
  /-- Candidates whose constants were optimized. -/
  finetuned : Nat := 0
  /-- Candidates replaced by the mean of the targets. -/
  degraded : Nat := 0
  /-- Texts that were dropped. -/
  dropped : Nat := 0
  /-- Optimizer iterations spent on all candidates. -/
  steps : Nat := 0
  /-- Position of the winner's text; none if the mean had to be made up. -/
  selected : Option Nat := none
deriving DecidableEq, Repr

/-- The result of refining a pool. -/
structure Refinement where
  /-- The surviving candidates with their scores, in the order of their texts. -/
  candidates : List Candidate
  winner : Candidate
  selected : Nat
  /-- What became of the texts. -/
  summary : Summary
deriving DecidableEq, Repr

namespace Refinement

/-- Reads one text. -/
def read (text : String) : Except Error (Expr Float) := (Formula.parse text).mapError .parse

/-- A candidate with its form before its constants were optimized. -/
structure Working where
  candidate : Candidate
  sanitized : Expr Float
deriving DecidableEq, Repr

/-- Reads and repairs texts, the first of which has a given position. -/
def sanitizeAll (config : Config) :
    (position : Nat) → List String → Summary → List Working × Summary
  | _, [], summary => ([], summary)
  | i, text :: texts, summary =>
    match read text with
    | .error _ =>
      sanitizeAll config (i + 1) texts { summary with dropped := summary.dropped + 1 }
    | .ok parsed =>
      let summary := { summary with parsed := summary.parsed + 1 }
      match parsed.sanitize config.sanitizePolicy with
      | .error _ =>
        sanitizeAll config (i + 1) texts { summary with dropped := summary.dropped + 1 }
      | .ok sanitized =>
        let (pool, summary) := sanitizeAll config (i + 1) texts
          { summary with sanitized := summary.sanitized + 1 }
        (⟨.ofExpr i sanitized, sanitized⟩ :: pool, summary)

/-- The generator of one candidate, which depends on its position alone. -/
def generator (seed : UInt64) (source : Nat) : ChaCha.Generator :=
  .ofSeed (seed + UInt64.ofNat source) 1

/-- Optimizes the constants of one candidate. -/
def tune (config : Config) (data : Dataset) (seed : UInt64) (budget : UInt64) (w : Working) :
    Except Error Working := do
  let outcome ← Finetune.finetune (config.finetuneSettings data.featureCount) data budget.toNat
    w.sanitized (generator seed w.candidate.source)
  let tuned :=
    if outcome.status = .tuned then w.candidate.withFinetuned outcome.expr outcome.steps
    else w.candidate.withAttempt outcome.steps
  return { w with candidate := tuned }

/-- The turn of one candidate. -/
structure Turn where
  /-- The allotments when the turn came. -/
  ledger : Budget.Ledger
  /-- The candidate after its turn. -/
  working : Working
deriving DecidableEq, Repr

/-- The turns of candidates, the first of which has a given index in the ledger: each is optimized
with its allotment, which what those before it have left is part of. -/
def turns (tune : UInt64 → Working → Except Error Working) :
    (i : Nat) → Budget.Ledger → ChaCha.Generator → List Working → Except Error (List Turn)
  | _, _, _, [] => return []
  | i, ledger, source, w :: ws => do
    let tuned ← tune (ledger.allotment i) w
    let (settled, source) := ledger.settle i (UInt64.ofNat tuned.candidate.steps) source
    return ⟨ledger, tuned⟩ :: (← turns tune (i + 1) settled source ws)

/-- The budgets of candidates that are optimized side by side: their parts of what they share, or
the same for each. -/
def budgets (config : Config) (counts : List Nat) (source : ChaCha.Generator) : List UInt64 :=
  match config.finetuneMaxEvals with
  | some total => (Budget.partition total counts source).1
  | none => List.replicate counts.length config.finetuneSteps

/-- Optimizes all candidates within their budgets, side by side or in turn. -/
def tuneAll (config : Config) (data : Dataset) (seed : UInt64) (pool : List Working) :
    Except Error (List Working) :=
  let counts := pool.map fun w => w.candidate.expr.freeConstantCount
  let source := ChaCha.Generator.ofSeed seed 0
  let tune := tune config data seed
  if config.parallel then
    (pool.zip (budgets config counts source)).mapM fun (w, budget) => tune budget w
  else
    match config.finetuneMaxEvals with
    | some total => do
      let (ledger, source) := Budget.Ledger.proportional total counts source
      return (← turns tune 0 ledger source pool).map Turn.working
    | none => pool.mapM (tune config.finetuneSteps)

/-- Constants are optimized at all, which takes too long for very many rows. -/
def isTuning (config : Config) (data : Dataset) : Bool :=
  config.finetune && data.rowCount ≤ config.maxFinetuneRows.toNat

/-- Optimizes the constants of a pool, if they are optimized at all, and counts what came of it. -/
def finetuneStage (config : Config) (data : Dataset) (seed : UInt64) (pool : List Working)
    (summary : Summary) : Except Error (List Working × Summary) :=
  if isTuning config data then do
    let pool ← tuneAll config data seed pool
    return (pool, { summary with
      finetuned := pool.countP fun w => w.candidate.status = .finetuned
      steps := (pool.map fun w => w.candidate.steps).sum })
  else return (pool, summary)

/-- Training error of predicting the mean of the targets everywhere. -/
def meanError (data : Dataset) : Float :=
  data.error (List.replicate data.rowCount data.targetMean)

/-- The predictions of a candidate for the training features.  One that takes too long to compile
goes back to its form before its constants were optimized, if that is another one. -/
def predictions (config : Config) (data : Dataset) (w : Working) :
    Candidate × Except Error (List Float) :=
  let evaluate (e : Expr Float) :=
    e.evaluate (config.compileOptions data.featureCount) data.features
  match evaluate w.candidate.expr with
  | .error (.timeout stage limitMs) =>
    if w.candidate.expr.same w.sanitized then (w.candidate, .error (.timeout stage limitMs))
    else
      ({ w.candidate with expr := w.sanitized, status := .untouched }, evaluate w.sanitized)
  | result => (w.candidate, result)

/-- Scores candidates.  One that predicts something infinite or undefined is replaced by the mean of
the targets, and one that cannot be evaluated is dropped. -/
def scoreAll (config : Config) (data : Dataset) :
    List Working → Summary → Except Error (List Candidate × Summary)
  | [], summary => return ([], summary)
  | w :: ws, summary =>
    match predictions config data w with
    | (c, .ok values) => do
      let (c, error, summary) :=
        if values.all Float.isFinite then (c, data.error values, summary)
        else
          (c.degrade data.targetMean, meanError data,
            { summary with degraded := summary.degraded + 1 })
      let c := c.withScores error (c.expr.complexity config.complexityMetric)
      let (scored, summary) ← scoreAll config data ws summary
      return (c :: scored, summary)
    | (_, .error e) =>
      if e.isRecoverable then
        scoreAll config data ws { summary with dropped := summary.dropped + 1 }
      else .error e

/-- The candidate of an empty pool. -/
def fallback (config : Config) (data : Dataset) (source : Nat) : Candidate :=
  let c := Candidate.constant source data.targetMean
  c.withScores (meanError data) (c.expr.complexity config.complexityMetric)

/-- Refines the texts of a pool against training data and selects a winner. -/
def refine (config : Config) (raw : List String) (data : Dataset) : Except Error Refinement := do
  config.validate
  let seed := config.randomState.getD 0
  let (pool, summary) := sanitizeAll config 0 raw { raw := raw.length }
  let (pool, summary) ← finetuneStage config data seed pool summary
  let (scored, summary) ← scoreAll config data pool summary
  let candidates := if scored.isEmpty then [fallback config data raw.length] else scored
  let selected ← Selection.selectCandidate config.criterion candidates
  let winner ← match candidates[selected]? with
    | some c => pure c
    | none => throw (.indexOutside selected candidates.length)
  return {
    candidates := candidates
    winner := winner
    selected := selected
    summary := { summary with
      selected := if winner.source < raw.length then some winner.source else none } }

end Refinement

end FormulaFit
