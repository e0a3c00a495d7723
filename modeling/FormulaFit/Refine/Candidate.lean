import FormulaFit.Refine.Config

/-!
# Candidates

A formula under consideration, with where it came from, how far its refinement got and how it
scores.
-/

namespace FormulaFit

/-- How far the refinement of a candidate got. -/
inductive CandidateStatus where
  | untouched
  | finetuned
  /-- It predicted something infinite or undefined and was replaced by a constant. -/
  | degraded
deriving DecidableEq, Repr

namespace CandidateStatus

/-- Every status. -/
def all : List CandidateStatus := [untouched, finetuned, degraded]

/-- Name in stored data. -/
def tag : CandidateStatus → String
  | untouched => "Untouched"
  | finetuned => "FineTuned"
  | degraded => "DegradedToConstant"

end CandidateStatus

/-- A formula under consideration. -/
structure Candidate where
  /-- Position of the text it was read from. -/
  source : Nat
  expr : Expr Float
  /-- How far its refinement got. -/
  status : CandidateStatus
  /-- Optimizer iterations spent on it. -/
  steps : Nat
  /-- Mean squared training error. -/
  error : Option Float
  complexity : Option Nat
deriving DecidableEq, Repr

namespace Candidate

/-- A candidate whose refinement has not begun. -/
def ofExpr (source : Nat) (expr : Expr Float) : Candidate :=
  ⟨source, expr, .untouched, 0, none, none⟩

/-- A candidate that predicts the same value everywhere. -/
def constant (source : Nat) (v : Float) : Candidate :=
  { ofExpr source (.constant v) with status := .degraded }

/-- The candidate with optimized constants. -/
def withFinetuned (c : Candidate) (expr : Expr Float) (steps : Nat) : Candidate :=
  { c with expr := expr, steps := steps, status := .finetuned }

/-- The candidate after an optimization that left it as it was. -/
def withAttempt (c : Candidate) (steps : Nat) : Candidate := { c with steps := steps }

/-- The candidate replaced by a constant. -/
def degrade (c : Candidate) (v : Float) : Candidate :=
  { c with expr := .constant v, status := .degraded }

/-- The candidate with its scores. -/
def withScores (c : Candidate) (error : Float) (complexity : Nat) : Candidate :=
  { c with error := some error, complexity := some complexity }

end Candidate

end FormulaFit
