import FormulaFit.Proofs.Refine.Improvement
import FormulaFit.Proofs.Refine.Spending
import FormulaFit.Proofs.Rewriting.Closure

/-!
# The contract of an optimization

The steps of an outcome are the evaluations of the loss.  To say so, the evaluation is made a
parameter of the optimization: with one that counts itself, the result is the same and the count is
the number of steps.  There are never more steps than allowed, a formula whose constants do not
count as optimized is as it was, and one whose constants do is well-formed, names nothing new and
has a finite training error that is at most the one before.  All this holds of every outcome; there
is none if the optimization needs an offset that cannot be drawn or a history that does not fit.
-/

namespace FormulaFit

namespace Finetune

section Counting

variable {m : Type → Type} [Monad m]

/-- `descend` with any way to evaluate the loss. -/
def descendBy (settings : Settings) (evaluate : List Float → m (Option (Float × List Float))) :
    (steps : Nat) → Lbfgs.State Float → (params : List Float) → (lastLoss : Float) → m Descent
  | 0, _, _, _ => return ⟨[], false⟩
  | steps + 1, state, params, lastLoss =>
    if Deadline.expired ⟨.finetune, settings.timeoutMs⟩ then return ⟨[], false⟩
    else do
      match ← evaluate params with
      | none => return ⟨[], true⟩
      | some (loss, gradient) =>
        if (loss - lastLoss).abs < settings.lbfgs.toleranceChange then
          return ⟨[⟨loss, params⟩], false⟩
        else
          match state.step settings.lbfgs params gradient with
          | (_, _, .converged) => return ⟨[⟨loss, params⟩], false⟩
          | (state, next, .moved) =>
            let rest ← descendBy settings evaluate steps state next loss
            return rest.after ⟨loss, params⟩

/-- `finetune` with any way to evaluate the loss of a program. -/
def finetuneBy {σ : Type} [WordSource σ] [MonadLiftT (Except Error) m]
    (evaluate : Program Float → List Float → m (Option (Float × List Float)))
    (settings : Settings) (data : Dataset) (maxSteps : Nat) (e : Expr Float) (source : σ) :
    m Outcome :=
  if e.features.isEmpty then return ⟨e, 0, .noParameters⟩
  else if 0 < e.paramCount then return ⟨e, 0, .compileFailed⟩
  else if !e.canLift settings.perturbationScale then
    liftM (.error (.internal "offset range overflow") : Except Error Outcome)
  else
    let ((lifted, initial), _) := e.lift settings.perturbationScale source
    if initial.isEmpty then return ⟨e, 0, .noParameters⟩
    else
      match lifted.compile settings.compile with
      | .error _ => return ⟨e, 0, .compileFailed⟩
      | .ok program =>
        if !settings.lbfgs.hasRoom then
          liftM (.error (.internal "history capacity overflow") : Except Error Outcome)
        else do
          let d ← descendBy settings (evaluate program) maxSteps .start initial Scalar.posInf
          liftM (conclude settings data e lifted d)

/-- What an optimization can do, however the loss is evaluated: end before any evaluation, with an
outcome or with a failure, or run from a lifted form that compiles. -/
theorem finetuneBy_cases {σ : Type} [WordSource σ] (settings : Settings) (data : Dataset)
    (maxSteps : Nat) (e : Expr Float) (source : σ) :
    (∃ outcome : Outcome, outcome.steps = 0 ∧
      ∀ {m : Type → Type} [Monad m] [MonadLiftT (Except Error) m] evaluate,
        finetuneBy (m := m) evaluate settings data maxSteps e source = pure outcome) ∨
    (∃ fault : Error,
      ∀ {m : Type → Type} [Monad m] [MonadLiftT (Except Error) m] evaluate,
        finetuneBy (m := m) evaluate settings data maxSteps e source =
          liftM (.error fault : Except Error Outcome)) ∨
    ∃ program,
      (e.lift settings.perturbationScale source).1.1.compile settings.compile = .ok program ∧
        ∀ {m : Type → Type} [Monad m] [MonadLiftT (Except Error) m] evaluate,
          finetuneBy (m := m) evaluate settings data maxSteps e source = (do
            let d ← descendBy settings (evaluate program) maxSteps .start
              (e.lift settings.perturbationScale source).1.2 Scalar.posInf
            liftM (conclude settings data e (e.lift settings.perturbationScale source).1.1 d)) := by
  unfold finetuneBy
  by_cases featureless : e.features.isEmpty = true
  · exact .inl ⟨_, rfl, fun _ => if_pos featureless⟩
  by_cases counted : 0 < e.paramCount
  · exact .inl ⟨_, rfl, fun _ => by rw [if_neg featureless, if_pos counted]⟩
  by_cases undrawable : (!e.canLift settings.perturbationScale) = true
  · exact .inr (.inl ⟨_, fun _ => by rw [if_neg featureless, if_neg counted, if_pos undrawable]⟩)
  simp only [if_neg featureless, if_neg counted, if_neg undrawable]
  by_cases none_lifted : (e.lift settings.perturbationScale source).1.2.isEmpty = true
  · exact .inl ⟨_, rfl, fun _ => if_pos none_lifted⟩
  simp only [if_neg none_lifted]
  cases (e.lift settings.perturbationScale source).1.1.compile settings.compile with
  | error fault => exact .inl ⟨_, rfl, fun _ => rfl⟩
  | ok program =>
      by_cases crowded : (!settings.lbfgs.hasRoom) = true
      · exact .inr (.inl ⟨_, fun _ => if_pos crowded⟩)
      · exact .inr (.inr ⟨program, rfl, fun _ => if_neg crowded⟩)

/-- An evaluation that counts itself. -/
def counted {β : Type} (evaluate : List Float → Except Error β) (params : List Float) :
    StateT Nat (Except Error) β := do
  modify (· + 1)
  evaluate params

variable {settings : Settings} {data : Dataset} {program : Program Float}

theorem descendBy_evaluate? (steps : Nat) (state : Lbfgs.State Float) (params : List Float)
    (lastLoss : Float) :
    descendBy settings (evaluate? program data) steps state params lastLoss =
      descend settings program data steps state params lastLoss := by
  induction steps generalizing state params lastLoss with
  | zero => rfl
  | succ steps ih =>
      simp only [descendBy, ih]
      rfl

theorem finetuneBy_evaluate? {σ : Type} [WordSource σ] (maxSteps : Nat) (e : Expr Float)
    (source : σ) :
    finetuneBy (fun program => evaluate? program data) settings data maxSteps e source =
      finetune settings data maxSteps e source := by
  simp only [finetuneBy, descendBy_evaluate?, finetune_eq]
  rfl

theorem run_counted_bind {β γ : Type} (evaluate : List Float → Except Error β)
    (params : List Float) (next : β → StateT Nat (Except Error) γ) (count : Nat) :
    (counted evaluate params >>= next).run count =
      evaluate params >>= fun result => (next result).run (count + 1) := by
  simp only [counted, bind_assoc, StateT.run_bind]
  cases evaluate params <;> rfl

theorem run_descendBy_counted (steps : Nat) (state : Lbfgs.State Float) (params : List Float)
    (lastLoss : Float) (count : Nat) :
    (descendBy settings (counted (evaluate? program data)) steps state params lastLoss).run count =
      (descend settings program data steps state params lastLoss).map
        fun d => (d, count + d.steps) := by
  induction steps generalizing state params lastLoss count with
  | zero => rfl
  | succ steps ih =>
      rw [descendBy, descend]
      split
      · rfl
      · rw [run_counted_bind]
        cases evaluate? program data params with
        | error fault => rfl
        | ok evaluated? =>
            cases evaluated? with
            | none => rfl
            | some evaluated =>
                change (pure (some evaluated) >>= _) =
                  (pure (some evaluated) >>= _ : Except _ _).map _
                simp only [pure_bind]
                split
                · rfl
                · rcases state.step settings.lbfgs params evaluated.2 with
                    ⟨next_state, next, moved | converged⟩
                  · simp only [StateT.run_bind, ih]
                    cases descend settings program data steps next_state next evaluated.1 with
                    | error fault => rfl
                    | ok rest =>
                        change Except.ok (_, count + 1 + rest.steps) = Except.ok (_, _)
                        rw [Descent.steps_after, Nat.add_right_comm, Nat.add_assoc]
                  · rfl

/-- An optimization with counted evaluations of the loss has the same result, and evaluates it as
often as the outcome says. -/
theorem run_finetuneBy_counted {σ : Type} [WordSource σ] (maxSteps : Nat) (e : Expr Float)
    (source : σ) :
    (finetuneBy (fun program => counted (evaluate? program data)) settings data maxSteps e
        source).run 0 =
      (finetune settings data maxSteps e source).map fun outcome => (outcome, outcome.steps) := by
  rw [← finetuneBy_evaluate?]
  rcases finetuneBy_cases settings data maxSteps e source with
    ⟨outcome, steps_eq, ended⟩ | ⟨fault, failed⟩ | ⟨program, -, runs⟩
  · rw [ended, ended]
    exact congrArg (fun steps => Except.ok (outcome, steps)) steps_eq.symm
  · rw [failed, failed]
    rfl
  · rw [runs, runs, StateT.run_bind, run_descendBy_counted, descendBy_evaluate?]
    cases descend settings program data maxSteps .start
        (e.lift settings.perturbationScale source).1.2 Scalar.posInf with
    | error fault => rfl
    | ok d =>
        cases concluded : conclude settings data e
            (e.lift settings.perturbationScale source).1.1 d with
        | error fault =>
            simp only [Except.map, bind, Except.bind, concluded]
            rfl
        | ok outcome =>
            simp only [Except.map, bind, Except.bind, concluded]
            change Except.ok (outcome, 0 + d.steps) = Except.ok (outcome, outcome.steps)
            rw [Nat.zero_add, (conclude_cases concluded).1]

end Counting

variable {σ : Type} [WordSource σ] {settings : Settings} {data : Dataset} {e : Expr Float}

theorem expr_eq_of_finetune {maxSteps : Nat} {source : σ} {outcome : Outcome}
    (finished : finetune settings data maxSteps e source = .ok outcome)
    (untuned : outcome.status ≠ .tuned) : outcome.expr = e := by
  rcases steps_eq_zero_or_exists_descend finished with
    ⟨-, -, kept⟩ | ⟨-, program, initial, d, -, -, concluded⟩
  · exact kept
  · obtain ⟨-, ⟨-, kept⟩ | ⟨tuned, -⟩⟩ := conclude_cases concluded
    · exact kept
    · exact absurd tuned untuned

/-- A formula with optimized constants: it is valid, has nothing degenerate, no coefficients and no
other features, and a finite training error that is not greater. -/
structure Improves (settings : Settings) (data : Dataset) (e tuned : Expr Float) : Prop where
  accepted : tuned.validate = .ok ()
  regular : tuned.hasDegenerate = false
  param_free : ∀ i, ¬tuned.Reaches (.param i)
  var_occurs : ∀ i, tuned.Reaches (.var i) → e.Reaches (.var i)
  error_le : ∃ before after, trainingError settings.compile data e = .ok before ∧
    trainingError settings.compile data tuned = .ok after ∧ after.isFinite = true ∧
      (before.isFinite = true → after ≤ before)

theorem improves_of_finetune {maxSteps : Nat} {source : σ} {outcome : Outcome}
    (valid : e.Valid) (finite : settings.sanitize.placeholder.isFinite = true)
    (finished : finetune settings data maxSteps e source = .ok outcome)
    (tuned : outcome.status = .tuned) : Improves settings data e outcome.expr := by
  rcases steps_eq_zero_or_exists_descend finished with
    ⟨-, untuned, -⟩ | ⟨-, program, initial, d, compiled, descended, concluded⟩
  · exact absurd tuned untuned
  · obtain ⟨-, ⟨i, best, repaired⟩, before, after, trained, trained', improvement⟩ :=
      tuned_of_conclude concluded tuned
    have supplied := not_reaches_insertParams_of_descend compiled descended i (mem_of_best? best)
    have sanitized := Expr.sanitized_of_sanitize repaired
    have lifts : e.Inherits (e.lift settings.perturbationScale source).1.1 :=
      valid.inherits_parametrize _
    have inserts := (Expr.valid_of_compile compiled).inherits_insertParams i.params
    have repairs := Expr.repairs_of_sanitize _ inserts.accepted supplied finite repaired
    exact {
      accepted := repairs.accepted
      regular := sanitized.hasDegenerate_eq
      param_free := repairs.param_free
      var_occurs := fun i reaches => lifts.var_occurs i
        (inserts.var_occurs i (repairs.var_occurs i reaches).mem).mem
      error_le := ⟨before, after, trained, trained', isFinite_of_isImprovement improvement,
        fun before_finite => (Refinement.atMost_of_isImprovement improvement before_finite).2⟩ }

/-- What every outcome of an optimization satisfies. -/
structure Contract (settings : Settings) (data : Dataset) (maxSteps : Nat) (e : Expr Float)
    (outcome : Outcome) : Prop where
  steps_le : outcome.steps ≤ maxSteps
  unchanged : outcome.status ≠ .tuned → outcome.expr = e
  improves : outcome.status = .tuned → Improves settings data e outcome.expr

/-- An optimization of any valid formula keeps its contract and has counted its evaluations of the
loss.  It has an outcome if and only if it needs no offset that cannot be drawn and no history that
there is no room for. -/
theorem finetune_contract (settings : Settings) (data : Dataset) (maxSteps : Nat) (e : Expr Float)
    (source : σ) (accepted : e.validate = .ok ())
    (countable : ¬e.Reaches (.param Program.uncountable))
    (finite : settings.sanitize.placeholder.isFinite = true) :
    ((∃ outcome, finetune settings data maxSteps e source = .ok outcome) ↔
        Affordable settings e) ∧
      ∀ outcome, finetune settings data maxSteps e source = .ok outcome →
        Contract settings data maxSteps e outcome ∧
          (finetuneBy (fun program => counted (evaluate? program data)) settings data maxSteps e
            source).run 0 = .ok (outcome, outcome.steps) := by
  have valid := (Expr.validate_eq_ok_iff e).mp accepted
  refine ⟨exists_finetune_iff valid countable finite maxSteps source, fun outcome finished => ?_⟩
  refine ⟨⟨steps_le_of_finetune finished, expr_eq_of_finetune finished,
    improves_of_finetune valid finite finished⟩, ?_⟩
  rw [run_finetuneBy_counted, finished]
  rfl

/-- The line `1.5*x_0`. -/
def slopedLine : Expr Float := ⟨#[.const 1.5, .var 0, .nary .mul [0, 1]], 2⟩

/-- The default settings for one feature. -/
def lineSettings : Settings := ({} : Config).finetuneSettings 1

theorem slopedLine_contract :
    slopedLine.validate = .ok () ∧ ¬slopedLine.Reaches (.param Program.uncountable) ∧
      lineSettings.sanitize.placeholder.isFinite = true ∧ Affordable lineSettings slopedLine ∧
      ∃ outcome, finetune lineSettings Refinement.lineSamples 5 slopedLine
          (ChaCha.Generator.ofSeed 7 0) = .ok outcome ∧
        outcome.status = .tuned ∧ outcome.steps = 2 ∧
        Contract lineSettings Refinement.lineSamples 5 slopedLine outcome := by
  have accepted : slopedLine.validate = .ok () := by decide +kernel
  have countable : ¬slopedLine.Reaches (.param Program.uncountable) := fun reaches => by
    simpa [slopedLine] using reaches.mem
  have finite : lineSettings.sanitize.placeholder.isFinite = true := by decide +kernel
  have affordable : Affordable lineSettings slopedLine :=
    affordable_of_settings (by decide +kernel) (by decide +kernel)
  have summary_eq : (finetune lineSettings Refinement.lineSamples 5 slopedLine
      (ChaCha.Generator.ofSeed 7 0)).toOption.map (fun o => (o.status, o.steps)) =
        some (.tuned, 2) := by decide +kernel
  obtain ⟨outcome, finished, summary⟩ := exists_of_map_toOption summary_eq
  have contract := ((finetune_contract lineSettings Refinement.lineSamples 5 slopedLine
    (ChaCha.Generator.ofSeed 7 0) accepted countable finite).2 outcome finished).1
  exact ⟨accepted, countable, finite, affordable, outcome, finished,
    congrArg Prod.fst summary, congrArg Prod.snd summary, contract⟩

/-- The settings with the greatest history that can be asked for. -/
def endlessHistory : Settings :=
  ({ historySize := 18446744073709551615 } : Config).finetuneSettings 1

/-- An optimization that is to take no step at all fails if it asks for too long a history. -/
theorem slopedLine_overflows :
    slopedLine.validate = .ok () ∧ (∀ i, ¬slopedLine.Reaches (.param i)) ∧
      endlessHistory.sanitize.placeholder.isFinite = true ∧
      (2 * endlessHistory.perturbationScale).isFinite = true ∧
      1 ≤ endlessHistory.lbfgs.historySize ∧
      finetune endlessHistory Refinement.lineSamples 0 slopedLine (ChaCha.Generator.ofSeed 0 0) =
        .error (.internal "history capacity overflow") := by
  refine ⟨by decide +kernel, fun i reaches => ?_, by decide +kernel, by decide +kernel,
    by decide +kernel, by decide +kernel⟩
  simpa [slopedLine] using reaches.mem

end Finetune

end FormulaFit
