import FormulaFit.Scalar

/-!
# Limited-memory BFGS

A minimiser with a fixed step size and no line search.  Its direction is minus the gradient times an
approximation of the inverse Hessian, which the two-loop recursion builds from the most recent
curvature pairs.  The first step is scaled down by the sum of the absolute gradient entries, so that
a badly scaled problem does not overshoot.
-/

namespace FormulaFit
namespace Lbfgs

-- Powers of naturals are those of the core library, whatever else is imported.
attribute [local instance (high)] instPowNat

/-- How the minimiser works. -/
structure Settings (α : Type) where
  learningRate : α
  /-- No gradient entry larger than this: converged. -/
  toleranceGrad : α
  /-- No coefficient moved further than this, or no descent beyond it: converged. -/
  toleranceChange : α
  historySize : Nat
deriving DecidableEq, Repr

/-- Greatest number of pairs for which room can be reserved: a pair takes 56 bytes, and the bytes
have to be addressable. -/
def historyLimit : Nat := (2 ^ (63 : Nat) - 1) / 56

/-- Room for the history can be reserved. -/
def Settings.hasRoom {α : Type} (settings : Settings α) : Bool :=
  settings.historySize ≤ historyLimit

/-- A displacement, the change of the gradient along it, and the reciprocal of their product. -/
structure CurvaturePair (α : Type) where
  /-- Displacement of the coefficients. -/
  s : List α
  /-- Change of the gradient. -/
  y : List α
  /-- Reciprocal of their product. -/
  rho : α
deriving DecidableEq, Repr

/-- What the minimiser remembers. -/
structure State (α : Type) where
  iteration : Nat
  direction : List α
  stepSize : α
  gradient : List α
  /-- Curvature pairs, oldest first. -/
  history : List (CurvaturePair α)
  /-- Diagonal of the initial inverse Hessian. -/
  scale : α
deriving DecidableEq, Repr

/-- Whether a step was worth while. -/
inductive Outcome where
  | moved
  /-- Further steps are pointless. -/
  | converged
deriving DecidableEq, Repr

variable {α : Type} [Scalar α]

/-- The state before the first step. -/
def State.start : State α := ⟨0, [], 0, [], [], 1⟩

/-- Least curvature that is remembered. -/
def curvatureThreshold : α := Scalar.ofDecimal 1 10

/-- Combines the entries that both lists have, and keeps the others of the first. -/
def combineWith (f : α → α → α) : List α → List α → List α
  | x :: xs, y :: ys => f x y :: combineWith f xs ys
  | xs, _ => xs

/-- The largest absolute entry; zero of none. -/
def largest (values : List α) : α := Scalar.maximum 0 (values.map Scalar.abs)

/-- Appends a pair and drops the oldest one when the history is full. -/
def remember (size : Nat) (history : List (CurvaturePair α)) (pair : CurvaturePair α) :
    List (CurvaturePair α) :=
  (if history.length = size then history.drop 1 else history) ++ [pair]

/-- Takes account of the displacement that led to a gradient, if its curvature is large enough. -/
def State.learn (size : Nat) (state : State α) (gradient : List α) : State α :=
  let y := List.zipWith (· - ·) gradient state.gradient
  let s := state.direction.map fun d => d * state.stepSize
  let curvature := Scalar.dot y s
  if Scalar.lt curvatureThreshold curvature then
    { state with
      scale := curvature / Scalar.dot y y
      history := remember size state.history ⟨s, y, 1 / curvature⟩ }
  else state

/-- First loop, from the newest pair to the oldest: takes the share of every pair out of the vector
and gives the shares, the oldest pair's first. -/
def removeShares (history : List (CurvaturePair α)) (q : List α) : List α × List α :=
  history.foldr
    (fun pair (q, shares) =>
      let share := pair.rho * Scalar.dot pair.s q
      (combineWith (fun qi yi => qi - share * yi) q pair.y, share :: shares))
    (q, [])

/-- Second loop, from the oldest pair to the newest: puts the shares back, corrected. -/
def restoreShares (history : List (CurvaturePair α)) (shares : List α) (q : List α) : List α :=
  (history.zip shares).foldl
    (fun q (pair, share) =>
      let correction := pair.rho * Scalar.dot pair.y q
      combineWith (fun qi si => qi + si * (share - correction)) q pair.s)
    q

/-- Minus the gradient times the approximate inverse Hessian. -/
def twoLoop (state : State α) (gradient : List α) : List α :=
  let (q, shares) := removeShares state.history (gradient.map fun g => -g)
  restoreShares state.history shares (q.map fun qi => qi * state.scale)

/-- The state with the direction and step size for a gradient. -/
def State.aim (settings : Settings α) (state : State α) (gradient : List α) : State α :=
  if state.iteration = 0 then
    let total := Scalar.sum (gradient.map Scalar.abs)
    { state with
      iteration := 1
      direction := gradient.map fun g => -g
      scale := 1
      gradient := gradient
      stepSize := Scalar.min (1 / total) 1 * settings.learningRate }
  else
    let state := state.learn settings.historySize gradient
    { state with
      iteration := state.iteration + 1
      direction := twoLoop state gradient
      gradient := gradient
      stepSize := settings.learningRate }

/-- One step from coefficients with a gradient: the new state, the new coefficients and whether it
was worth while. -/
def State.step (settings : Settings α) (state : State α) (params gradient : List α) :
    State α × List α × Outcome :=
  if Scalar.le (largest gradient) settings.toleranceGrad then (state, params, .converged)
  else
    let state := state.aim settings gradient
    if Scalar.lt (-settings.toleranceChange) (Scalar.dot gradient state.direction) then
      (state, params, .converged)
    else
      let moves := state.direction.map fun d => state.stepSize * d
      let moved := combineWith (· + ·) params moves
      let reached := List.zipWith (fun _ move => move) params moves
      if Scalar.le (largest reached) settings.toleranceChange then (state, moved, .converged)
      else (state, moved, .moved)

end Lbfgs
end FormulaFit
