import FormulaFit.Double
import FormulaFit.Proofs.Optimize.QuasiNewton

/-!
# What the history remembers

With any scalars, the history holds the pairs accepted last, each with enough curvature and with the
reciprocal of it, and a step that finds the gradient small or the direction flat moves nothing.  In
exact arithmetic, the pair considered after a step that was worth while is the displacement by that
step and the change of the gradient along it.
-/

namespace FormulaFit
namespace Lbfgs

section Tests

variable {α : Type} [Scalar α] {settings : Settings α} {state : State α} {gradient : List α}

theorem State.step_snd_of_test (params : List α)
    (tested : settings.stops gradient = true ∨
      settings.isFlat gradient (state.aim settings gradient).direction = true) :
    (state.step settings params gradient).2 = (params, .converged) := by
  have steps := state.steps_step settings params gradient
  generalize state.step settings params gradient = result at steps ⊢
  cases steps with
  | small | flat => rfl
  | move large steep =>
      rw [large, steep] at tested
      rcases tested with small | flat
      · cases small
      · cases flat

theorem State.step_eq_of_moved {params : List α}
    (moved : (state.step settings params gradient).2.2 = .moved) :
    (state.step settings params gradient).1 = state.aim settings gradient ∧
      (state.step settings params gradient).2.1 = (state.aim settings gradient).move params := by
  have steps := state.steps_step settings params gradient
  generalize state.step settings params gradient = result at steps moved ⊢
  cases steps with
  | small | flat => cases moved
  | move => exact ⟨rfl, rfl⟩

/-- The history of the minimiser after a sequence of steps. -/
structure Remembers (settings : Settings α) (calls : List (Call α))
    (history : List (CurvaturePair α)) : Prop where
  length_le : history.length ≤ settings.historySize
  eq_recent : history = recent settings.historySize (State.start.accepted settings calls)
  curved : ∀ pair ∈ history, IsCurved pair

theorem remembers_feed (positive : 0 < settings.historySize) (calls : List (Call α)) :
    Remembers settings calls (State.start.feed settings calls).history where
  length_le := by
    rw [State.history_feed positive]
    exact length_recent_le _ _
  eq_recent := State.history_feed positive calls
  curved pair member := by
    rw [State.history_feed positive] at member
    exact State.isCurved_of_mem_accepted calls _ pair (List.mem_of_mem_drop member)

end Tests

section Exact

open Exact

variable {K : Type} [Field K] [LinearOrder K] [Interpretation K] {n : Nat}
  {state : State (Exact K)} {rate : K} {direction gradient : Fin n → K}

theorem Aims.move_eq (aims : Aims state rate direction gradient) (params : Fin n → K) :
    state.move (vector params) = vector (params + rate • direction) := by
  have moves_eq : state.direction.map (fun d => state.stepSize * d) =
      vector (rate • direction) := by
    rw [aims.direction_eq, aims.stepSize_eq]
    exact map_vector (g := fun a => rate * a) (fun a => rfl) direction
  rw [State.move, moves_eq]
  exact combineWith_vector (g := fun a b => a + b) (fun a b => rfl) params _

theorem Aims.considered?_eq (aims : Aims state rate direction gradient)
    {settings : Settings (Exact K)} {next : Fin n → K}
    (large : settings.stops (vector next) = false) :
    state.considered? settings (vector next) = some (state.pair (vector next)) := by
  simp [State.considered?, large, aims.started]

/-- The pair that is considered after a step that was worth while is the displacement by that step
and the change of the gradient. -/
theorem Tracks.exists_displacement [IsStrictOrderedRing K] (tracks : Tracks n state)
    {settings : Settings (Exact K)} (rate_eq : settings.learningRate = real rate)
    {params : Fin n → K}
    (moved : (state.step settings (vector params) (vector gradient)).2.2 = .moved)
    (next : Fin n → K) :
    ∃ reached : Fin n → K,
      (state.step settings (vector params) (vector gradient)).2.1 = vector reached ∧
        (settings.stops (vector next) = false → ∃ pair,
          (state.step settings (vector params) (vector gradient)).1.considered? settings
              (vector next) = some pair ∧
            pair.s = vector (reached - params) ∧ pair.y = vector (next - gradient)) := by
  obtain ⟨aimed, moved_eq⟩ := State.step_eq_of_moved moved
  obtain ⟨pairs, rate, -, aims⟩ := tracks.aim rate_eq gradient
  refine ⟨_, moved_eq.trans (aims.move_eq params), fun large => ?_⟩
  rw [aimed, add_sub_cancel_left]
  exact ⟨_, aims.considered?_eq large, aims.pair_s next, aims.pair_y next⟩

end Exact

section Main

open Exact

/-- The history holds the last pairs accepted, within its limit; a step that a test ends leaves the
coefficients; and in exact arithmetic, with coefficients and gradients of one length, the pair that
is considered after a worthwhile step is the displacement by it and the change of the gradient. -/
theorem history_remembers {α : Type} [Scalar α] (settings : Settings α)
    (positive : 1 ≤ settings.historySize) :
    (∀ calls, Remembers settings calls (State.start.feed settings calls).history) ∧
      (∀ (state : State α) (params gradient : List α), settings.stops gradient = true ∨
          settings.isFlat gradient (state.aim settings gradient).direction = true →
        (state.step settings params gradient).2 = (params, .converged)) ∧
      ∀ (K : Type) [Field K] [LinearOrder K] [IsStrictOrderedRing K] [Interpretation K]
        (exact : Settings K) (n : Nat) (calls : List ((Fin n → K) × (Fin n → K)))
        (params gradient next : Fin n → K),
        let state := State.start.feed (exact.map real)
          (calls.map fun (params, g) => ⟨vector params, vector g⟩)
        let result := state.step (exact.map real) (vector params) (vector gradient)
        result.2.2 = .moved → ∃ reached : Fin n → K, result.2.1 = vector reached ∧
          ((exact.map real).stops (vector next) = false → ∃ pair,
            result.1.considered? (exact.map real) (vector next) = some pair ∧
              pair.s = vector (reached - params) ∧ pair.y = vector (next - gradient)) := by
  refine ⟨remembers_feed positive, fun state params gradient => State.step_snd_of_test params, ?_⟩
  intro K _ _ _ _ exact n calls params gradient next state result moved
  have rate_eq : (exact.map real).learningRate = real exact.learningRate := rfl
  have tracks : Tracks n state := by
    have tracks := tracks_feed rate_eq (calls.map fun call => (vector call.1, call.2))
    rwa [List.map_map] at tracks
  exact tracks.exists_displacement rate_eq moved next

/-- Settings with room for two pairs. -/
def twoSecants : Settings Float := ⟨1, 1e-9, 1e-9, 2⟩

/-- Four gradients with enough curvature between them. -/
def bowlCalls : List (Call Float) :=
  [⟨[0, 0], [2, 4]⟩, ⟨[0, 0], [1, 1]⟩, ⟨[0, 0], [-1, 0.5]⟩, ⟨[0, 0], [1, 0]⟩]

/-- Of three accepted pairs two are left, and an exact step is reconstructed from the direction. -/
theorem twoSecants_remembers :
    1 ≤ twoSecants.historySize ∧ (State.start.accepted twoSecants bowlCalls).length = 3 ∧
      Remembers twoSecants bowlCalls (State.start.feed twoSecants bowlCalls).history ∧
      letI := rationalInterpretation
      let result := State.start.step (oneSecant.map real) (vector ![0, 0]) (vector ![2, 4])
      result.2.2 = .moved ∧ ∃ reached : Fin 2 → ℚ, result.2.1 = vector reached ∧ ∃ pair,
        result.1.considered? (oneSecant.map real) (vector ![1, 1]) = some pair ∧
          pair.s = vector (reached - ![0, 0]) ∧ pair.y = vector (![1, 1] - ![2, 4]) := by
  have room : 1 ≤ twoSecants.historySize := by decide
  let := rationalInterpretation
  have moved : (State.start.step (oneSecant.map real) (vector ![0, 0]) (vector ![2, 4])).2.2 =
      .moved := by decide +kernel
  obtain ⟨remembers, -, displaces⟩ := history_remembers twoSecants room
  obtain ⟨reached, reached_eq, considers⟩ :=
    displaces ℚ oneSecant 2 [] ![0, 0] ![2, 4] ![1, 1] moved
  exact ⟨room, by decide +kernel, remembers bowlCalls, moved, reached, reached_eq,
    considers (by decide +kernel)⟩

end Main

end Lbfgs
end FormulaFit
