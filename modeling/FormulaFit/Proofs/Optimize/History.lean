import FormulaFit.Optimize.Lbfgs
import Mathlib.Tactic.Common

/-!
# The history of the minimiser

Every step but the first considers the pair that its gradient makes with the last step, and accepts
it if its curvature is large enough.  At any time the history holds the pairs accepted last, in the
order of acceptance, and no more of them than it may.
-/

namespace FormulaFit
namespace Lbfgs

variable {α : Type} [Scalar α]

/-- Coefficients with the gradient there, as a step gets them. -/
structure Call (α : Type) where
  params : List α
  gradient : List α

/-- The state after a sequence of steps. -/
def State.feed (settings : Settings α) (state : State α) (calls : List (Call α)) : State α :=
  calls.foldl (fun state call => (state.step settings call.params call.gradient).1) state

theorem State.feed_concat (settings : Settings α) (state : State α) (calls : List (Call α))
    (call : Call α) :
    state.feed settings (calls ++ [call]) =
      ((state.feed settings calls).step settings call.params call.gradient).1 := by
  rw [State.feed, List.foldl_append]
  rfl

/-- The pair that a gradient makes with the last step. -/
def State.pair (state : State α) (gradient : List α) : CurvaturePair α :=
  let y := List.zipWith (· - ·) gradient state.gradient
  let s := state.direction.map fun d => d * state.stepSize
  ⟨s, y, 1 / Scalar.dot y s⟩

/-- The gradient is so small that a step does nothing. -/
def Settings.stops (settings : Settings α) (gradient : List α) : Bool :=
  Scalar.le (largest gradient) settings.toleranceGrad

/-- The direction does not lead down far enough for a step along it. -/
def Settings.isFlat (settings : Settings α) (gradient direction : List α) : Bool :=
  Scalar.lt (-settings.toleranceChange) (Scalar.dot gradient direction)

/-- The coefficients after a step along the direction. -/
def State.move (state : State α) (params : List α) : List α :=
  combineWith (· + ·) params (state.direction.map fun d => state.stepSize * d)

/-- The pair that a step considers: there is none without a step before it, and none if the gradient
is so small that the step does nothing. -/
def State.considered? (settings : Settings α) (state : State α) (gradient : List α) :
    Option (CurvaturePair α) :=
  if settings.stops gradient || state.iteration = 0 then none else some (state.pair gradient)

/-- The curvature of the pair is large enough. -/
def CurvaturePair.isAccepted (pair : CurvaturePair α) : Bool :=
  Scalar.lt curvatureThreshold (Scalar.dot pair.y pair.s)

/-- The pair that a step accepts. -/
def State.accepted? (settings : Settings α) (state : State α) (gradient : List α) :
    Option (CurvaturePair α) :=
  (state.considered? settings gradient).filter CurvaturePair.isAccepted

/-- The pairs accepted by a sequence of steps, in order. -/
def State.accepted (settings : Settings α) (state : State α) :
    List (Call α) → List (CurvaturePair α)
  | [] => []
  | call :: calls =>
    (state.accepted? settings call.gradient).toList ++
      State.accepted settings (state.step settings call.params call.gradient).1 calls

variable {settings : Settings α} {state : State α} {gradient : List α}

/-- What a step can do. -/
inductive Steps (settings : Settings α) (state : State α) (params gradient : List α) :
    State α × List α × Outcome → Prop where
  | small (small : settings.stops gradient = true) :
      Steps settings state params gradient (state, params, .converged)
  | flat (large : settings.stops gradient = false)
      (flat : settings.isFlat gradient (state.aim settings gradient).direction = true) :
      Steps settings state params gradient (state.aim settings gradient, params, .converged)
  | move (large : settings.stops gradient = false)
      (steep : settings.isFlat gradient (state.aim settings gradient).direction = false)
      (outcome : Outcome) :
      Steps settings state params gradient
        (state.aim settings gradient, (state.aim settings gradient).move params, outcome)

theorem State.steps_step (settings : Settings α) (state : State α) (params gradient : List α) :
    Steps settings state params gradient (state.step settings params gradient) := by
  rw [State.step]
  split
  · rename_i small
    exact .small small
  · rename_i large
    dsimp only
    split
    · rename_i flat
      exact .flat (Bool.eq_false_iff.mpr large) flat
    · rename_i steep
      split
      · exact .move (Bool.eq_false_iff.mpr large) (Bool.eq_false_iff.mpr steep) .converged
      · exact .move (Bool.eq_false_iff.mpr large) (Bool.eq_false_iff.mpr steep) .moved

theorem State.step_fst (settings : Settings α) (state : State α) (params gradient : List α) :
    (state.step settings params gradient).1 =
      if settings.stops gradient then state else state.aim settings gradient := by
  have steps := state.steps_step settings params gradient
  generalize state.step settings params gradient = result at steps ⊢
  cases steps with
  | small small => rw [if_pos small]
  | flat large | move large => rw [if_neg (Bool.eq_false_iff.mp large)]

theorem State.learn_eq (size : Nat) (state : State α) (gradient : List α) :
    state.learn size gradient =
      if (state.pair gradient).isAccepted then
        { state with
          scale := Scalar.dot (state.pair gradient).y (state.pair gradient).s /
            Scalar.dot (state.pair gradient).y (state.pair gradient).y
          history := remember size state.history (state.pair gradient) }
      else state := rfl

theorem State.history_step (params : List α) :
    (state.step settings params gradient).1.history =
      match state.accepted? settings gradient with
      | some pair => remember settings.historySize state.history pair
      | none => state.history := by
  rw [State.step_fst, State.accepted?, State.considered?]
  by_cases small : settings.stops gradient = true
  · simp [small]
  · rw [if_neg small]
    by_cases first : state.iteration = 0
    · simp [State.aim, first]
    · rw [State.aim, if_neg first]
      dsimp only
      rw [State.learn_eq]
      by_cases accepted : (state.pair gradient).isAccepted = true
      · simp [small, first, accepted, Option.filter_some]
      · simp [small, first, accepted, Option.filter_some]

/-- The last of the pairs, as many as the history may hold. -/
def recent (size : Nat) (pairs : List (CurvaturePair α)) : List (CurvaturePair α) :=
  pairs.drop (pairs.length - size)

omit [Scalar α] in
theorem length_recent_le (size : Nat) (pairs : List (CurvaturePair α)) :
    (recent size pairs).length ≤ size := by
  rw [recent, List.length_drop]
  omega

omit [Scalar α] in
/-- Appending to the last pairs and dropping the oldest one gives the last pairs. -/
theorem remember_recent {size : Nat} (positive : 0 < size) (pairs : List (CurvaturePair α))
    (pair : CurvaturePair α) :
    remember size (recent size pairs) pair = recent size (pairs ++ [pair]) := by
  rw [remember, recent, recent, List.length_append, List.length_singleton, List.length_drop]
  by_cases full : size ≤ pairs.length
  · have dropped : pairs.length - size + 1 = pairs.length + 1 - size := by omega
    rw [if_pos (by omega), List.drop_drop, dropped, List.drop_append_of_le_length (by omega)]
  · have nothing : pairs.length - size = 0 := by omega
    have nothing' : pairs.length + 1 - size = 0 := by omega
    rw [if_neg (by omega), nothing, nothing', List.drop_zero, List.drop_zero]

/-- What remembering one pair keeps between the history and the pairs accepted so far, a sequence of
steps keeps. -/
theorem State.feed_induction {P : List (CurvaturePair α) → List (CurvaturePair α) → Prop}
    (remembered : ∀ history before pair, P history before →
      P (remember settings.historySize history pair) (before ++ [pair]))
    (calls : List (Call α)) {state : State α} {before : List (CurvaturePair α)}
    (start : P state.history before) :
    P (state.feed settings calls).history (before ++ state.accepted settings calls) := by
  induction calls generalizing state before with
  | nil => rwa [State.accepted, List.append_nil]
  | cons call calls ih =>
      rw [State.feed, List.foldl_cons, ← State.feed, State.accepted, ← List.append_assoc]
      refine ih ?_
      rw [State.history_step]
      cases state.accepted? settings call.gradient with
      | none => rwa [Option.toList_none, List.append_nil]
      | some pair => exact remembered _ _ pair start

theorem State.history_feed (positive : 0 < settings.historySize) (calls : List (Call α)) :
    (State.start.feed settings calls).history =
      recent settings.historySize (State.start.accepted settings calls) := by
  have empty : (State.start : State α).history = recent settings.historySize [] :=
    List.drop_nil.symm
  refine State.feed_induction (P := fun history before =>
    history = recent settings.historySize before) ?_ calls empty
  rintro _ before pair rfl
  exact remember_recent positive before pair

/-- The newest pair of the history is the one accepted last, even if there is room for none. -/
theorem State.getLast?_history_feed (calls : List (Call α)) :
    (State.start.feed settings calls).history.getLast? =
      (State.start.accepted settings calls).getLast? := by
  have empty : (State.start : State α).history.getLast? =
      ([] : List (CurvaturePair α)).getLast? := rfl
  refine State.feed_induction (P := fun history before =>
    history.getLast? = before.getLast?) ?_ calls empty
  intro history before pair _
  rw [remember, List.getLast?_concat, List.getLast?_concat]

/-- An accepted pair has enough curvature, and its last entry is the reciprocal of that. -/
structure IsCurved (pair : CurvaturePair α) : Prop where
  curved : Scalar.lt curvatureThreshold (Scalar.dot pair.y pair.s) = true
  rho_eq : pair.rho = 1 / Scalar.dot pair.y pair.s

theorem State.isCurved_of_accepted? {pair : CurvaturePair α}
    (accepted : state.accepted? settings gradient = some pair) : IsCurved pair := by
  obtain ⟨considered, curved⟩ := Option.filter_eq_some_iff.mp accepted
  refine ⟨curved, ?_⟩
  rw [State.considered?] at considered
  split at considered
  · cases considered
  · cases considered
    rfl

theorem State.isCurved_of_mem_accepted (calls : List (Call α)) (state : State α) :
    ∀ pair ∈ state.accepted settings calls, IsCurved pair := by
  induction calls generalizing state with
  | nil => simp [State.accepted]
  | cons call calls ih =>
      intro pair member
      rw [State.accepted, List.mem_append] at member
      rcases member with now | later
      · exact State.isCurved_of_accepted? (Option.mem_toList.mp now)
      · exact ih _ pair later

end Lbfgs
end FormulaFit
