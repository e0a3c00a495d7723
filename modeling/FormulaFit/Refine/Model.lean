import FormulaFit.Data.Imputer
import FormulaFit.Expr.Json
import FormulaFit.Refine.Pool

/-!
# Models

The winner of a refinement, with everything that predictions need.  A model is stored as JSON except
for its imputation, so a reloaded model refuses missing values; infinite and undefined numbers have
no JSON form, so a model with one is written but not read back.  A stored model also has a random
`id` and the time `fitted_at` at which it was made.  No result depends on them, so they are left out:
what is written here lacks them, and what is read need not have them.
-/

namespace FormulaFit

/-- A fitted formula. -/
structure Model where
  expr : Expr Float
  trainingError : Float
  complexity : Nat
  /-- How far its refinement got. -/
  status : CandidateStatus
  summary : Summary
  /-- Value of a division by zero. -/
  divisionPlaceholder : Float
  /-- How missing values are filled, if any were missing in training. -/
  imputation : Option Imputation

namespace Model

/-- The model of a winning candidate. -/
def ofCandidate (c : Candidate) (summary : Summary) (divisionPlaceholder : Float)
    (imputation : Option Imputation) : Model where
  expr := c.expr
  trainingError := c.error.getD (0 / 0)
  complexity := c.complexity.getD c.expr.nodeCount.toNat
  status := c.status
  summary := summary
  divisionPlaceholder := divisionPlaceholder
  imputation := imputation

/-- The model with another value of a division by zero. -/
def withDivisionPlaceholder (m : Model) (v : Float) : Model := { m with divisionPlaceholder := v }

/-- The literal that the whole formula is. -/
def constant? (m : Model) : Option Float := m.expr.constant?

/-- The inputs with missing values filled. -/
def complete (m : Model) (x : Matrix Float) : Except Error (Matrix Float) :=
  if x.hasMissing then
    match m.imputation with
    | some imputation => imputation.apply x
    | none => .error (.data .noImputer)
  else .ok x

/-- How the formula is compiled for inputs of a width. -/
def compileOptions (m : Model) (featureCount : Nat) : CompileOptions Float :=
  { ({} : Config).compileOptions featureCount with divisionPlaceholder := m.divisionPlaceholder }

/-- One prediction for every row. -/
def predict (m : Model) (x : Matrix Float) : Except Error (List Float) := do
  let x ← m.complete x
  m.expr.predict (m.compileOptions x.cols) x

/-- One prediction for every row, all undefined if the inputs cannot be used. -/
def predictOrNaN (m : Model) (x : Matrix Float) : Except Error (List Float) := do
  return (← Error.absorb (m.predict x)).getD (List.replicate x.rows (0 / 0))

end Model

namespace Summary

/-- The names of the fields in stored data, in order. -/
def fieldNames : List String :=
  ["raw_candidates", "parsed", "sanitized", "finetuned", "degraded", "dropped", "finetune_steps",
    "selected_index"]

/-- The JSON form of a summary. -/
def toJson (s : Summary) : Json :=
  .object (fieldNames.zip ([s.raw, s.parsed, s.sanitized, s.finetuned, s.degraded, s.dropped,
    s.steps].map Json.ofNat ++ [(s.selected.map Json.ofNat).getD .null]))

/-- Reads a count. -/
def count? (j : Json) : Option Nat := j.natBelow? UInt64.size

/-- Reads a summary. -/
def ofJson? (j : Json) : Option Summary := do
  match ← j.record? false fieldNames with
  | [some raw, some parsed, some sanitized, some finetuned, some degraded, some dropped, some steps,
      selected] =>
    return ⟨← count? raw, ← count? parsed, ← count? sanitized, ← count? finetuned,
      ← count? degraded, ← count? dropped, ← count? steps,
      ← (selected.getD .null).optional? count?⟩
  | _ => none

end Summary

namespace Model

/-- The names of the fields in stored data, in order. -/
def fieldNames : List String :=
  ["expr", "training_error", "complexity", "status", "summary", "division_placeholder"]

/-- The JSON form of a model. -/
def toJson (m : Model) : Json :=
  .object (fieldNames.zip [m.expr.toJson, .ofFloat m.trainingError, .ofNat m.complexity,
    .string m.status.tag, m.summary.toJson, .ofFloat m.divisionPlaceholder])

/-- Reads a model; it has no imputation. -/
def ofJson? (j : Json) : Option Model := do
  match ← j.record? false fieldNames with
  | [some expr, some error, some complexity, some status, some summary, some placeholder] =>
    return {
      expr := ← Expr.ofJson? expr
      trainingError := ← error.float?
      complexity := ← Summary.count? complexity
      status := ← ofTag? CandidateStatus.all CandidateStatus.tag status
      summary := ← Summary.ofJson? summary
      divisionPlaceholder := ← placeholder.float?
      imputation := none }
  | _ => none

/-- Writes a model as a JSON text. -/
def jsonText (m : Model) : String := m.toJson.text

/-- Reads a model from a JSON text. -/
def ofJsonText (text : String) : Except Error Model :=
  match (Json.parse? text).bind ofJson? with
  | some m => .ok m
  | none => .error .serialization

/-- Two models agree in everything that is stored. -/
def sameStored (m n : Model) : Bool :=
  m.expr.same n.expr && decide (m.trainingError = n.trainingError) &&
    m.complexity == n.complexity && decide (m.status = n.status) &&
    decide (m.summary = n.summary) && decide (m.divisionPlaceholder = n.divisionPlaceholder)

end Model

end FormulaFit
