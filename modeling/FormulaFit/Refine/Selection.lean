import FormulaFit.Refine.Candidate

/-!
# Selection

The candidate with the lowest error wins, or the one with the highest score.  A score weighs
accuracy against simplicity; both are measured on the range that the pool covers, from one at the
best to zero at the worst.  An error that is not finite counts as slightly worse than the worst
finite one, and of equally good candidates the first wins.
-/

namespace FormulaFit
namespace Selection

section Scores

variable {α : Type} [Scalar α]

/-- Distance of an invalid error from the worst valid one. -/
def invalidGap : α := Scalar.ofDecimal 1 6

/-- The worst finite error; below every number if there is none. -/
def worstFinite (errors : List α) : α :=
  Scalar.maximum Scalar.negInf (errors.filter fun e => Scalar.isFinite e)

/-- What an invalid error counts as. -/
def invalidFill (errors : List α) : α :=
  let worst := worstFinite errors
  if Scalar.isFinite worst then worst + invalidGap else 0

/-- The errors with invalid ones replaced. -/
def fillInvalid (errors : List α) : List α :=
  let fill := invalidFill errors
  errors.map fun e => if Scalar.isFinite e then e else fill

/-- Where values lie on the range that they cover, from zero at the lowest to one at the highest;
all at zero if they cover none. -/
def normalize (values : List α) : List α :=
  let low := Scalar.minimum Scalar.posInf values
  let range := Scalar.maximum Scalar.negInf values - low
  values.map fun v => if Scalar.lt 0 range then (v - low) / range else 0

/-- The score of a place on the error range and a place on the complexity range. -/
def score (rci error complexity : α) : α := (1 - rci) * (1 - error) + rci * (1 - complexity)

/-- The scores of candidates. -/
def scores (rci : α) (errors : List α) (complexities : List Nat) : List α :=
  List.zipWith (score rci) (normalize (fillInvalid errors))
    (normalize (complexities.map Scalar.ofNat))

/-- The better of two candidates; the earlier one unless the later one beats it. -/
def better (beats : α → α → Bool) (best next : α × Nat) : α × Nat :=
  if beats next.1 best.1 then next else best

/-- Index of the first value that no other one beats. -/
def firstBest (beats : α → α → Bool) (values : List α) : Nat :=
  match values.zipIdx with
  | [] => 0
  | first :: rest => (rest.foldl (better beats) first).2

/-- Index of the winner of a pool that is not empty. -/
def winner (criterion : Criterion α) (errors : List α) (complexities : List Nat) : Nat :=
  match criterion with
  | .minError => firstBest Scalar.lt (fillInvalid errors)
  | .weighted rci => firstBest (fun a b => Scalar.lt b a) (scores rci errors complexities)

end Scores

/-- Index of the winner.  Every candidate needs both scores, and a weight must lie between zero and
one. -/
def select (criterion : Criterion Float) (errors : List Float) (complexities : List Nat) :
    Except Error Nat := do
  if errors.length ≠ complexities.length then
    throw (.config (.scoreCounts errors.length complexities.length))
  if errors.isEmpty then throw .emptyPool
  if let .weighted rci := criterion then
    if !Config.isWeight rci then throw (.config (.weightOutside rci))
  return winner criterion errors complexities

/-- Both scores of a candidate. -/
def scored (c : Candidate) : Except Error (Float × Nat) :=
  match c.error, c.complexity with
  | some error, some complexity => .ok (error, complexity)
  | _, _ => .error (.internal s!"candidate {c.source} reached selection unscored")

/-- Index of the winner among scored candidates. -/
def selectCandidate (criterion : Criterion Float) (candidates : List Candidate) :
    Except Error Nat := do
  let pairs ← candidates.mapM scored
  select criterion (pairs.map Prod.fst) (pairs.map Prod.snd)

end Selection
end FormulaFit
