import FormulaFit.Optimize.Finetune
import FormulaFit.Proofs.Optimize.Parametrization
import FormulaFit.Proofs.Program.Prediction
import FormulaFit.Proofs.Scalar.Doubles

/-!
# Fine-tuning and later evaluation

Steps are spent only on a formula that compiles, so evaluating it later fails only by a crash.  A
formula whose constants were optimized is closed, since its loss was evaluated, and the optimized
formula has finite predictions, since its training error is finite.
-/

namespace FormulaFit

theorem Error.absorb_eq_some_iff {β : Type} {result : Except Error β} {b : β} :
    Error.absorb result = .ok (some b) ↔ result = .ok b := by
  cases result with
  | ok c => simp [absorb]
  | error e => cases crash : e.isCrash <;> simp [absorb, crash]

theorem Dataset.rows_pos (data : Dataset) : 0 < data.features.rows := by
  rw [data.rows_eq]
  exact List.length_pos_iff.mpr data.targets_ne_nil

/-- A loss has checked the number of coefficients and run over some row. -/
theorem Program.exists_forward_of_lossAndGradient {α : Type} [Scalar α] {p : Program α}
    {x : Matrix α} {targets : List α} {params : Array α} {result : α × List α}
    (evaluated : p.lossAndGradient x targets params = .ok result) :
    params.size = p.paramCount ∧ ∃ row buffer slots, p.forward row params buffer = .ok slots := by
  rw [lossAndGradient, bind_eq_ok_iff] at evaluated
  obtain ⟨_, checked, evaluated⟩ := evaluated
  refine ⟨(checkInputs_eq_ok_iff.mp checked).1, ?_⟩
  split at evaluated
  · cases evaluated
  · rename_i matched
    simp only [ne_eq, Bool.or_eq_true, decide_eq_true_eq, List.isEmpty_iff, not_or, not_not]
      at matched
    obtain ⟨sums, folded, -⟩ := bind_eq_ok_iff.mp evaluated
    have samples_pos : 0 < (x.rowList.zip targets).length := by
      rw [List.length_zip, Matrix.length_rowList, ← matched.1, Nat.min_self]
      exact List.length_pos_iff.mpr matched.2
    obtain ⟨sample, samples, samples_eq⟩ := List.exists_cons_of_length_pos samples_pos
    rw [samples_eq, List.foldlM_cons] at folded
    obtain ⟨next, added, -⟩ := bind_eq_ok_iff.mp folded
    obtain ⟨slots, finished, -⟩ := bind_eq_ok_iff.mp added
    exact ⟨sample.1, _, slots, finished⟩

namespace Expr

/-- Coefficients that are not counted have the greatest index. -/
theorem Valid.eq_uncountable {α : Type} {e : Expr α} (valid : e.Valid)
    (uncounted : ¬0 < e.paramCount) {i : UInt64} (reaches : e.Reaches (.param i)) :
    i = Program.uncountable := by
  by_contra countable
  have member : i ∈ e.reachable.filterMap Node.paramIndex? :=
    List.mem_filterMap.mpr ⟨_, valid.mem_reachable_iff.mpr reaches, rfl⟩
  have below := Program.lt_foldl_countIndex member countable
  rw [← paramCount_eq] at below
  exact uncounted (UInt64.lt_iff_toNat_lt.mpr (Nat.zero_lt_of_lt below))

variable {σ : Type} [WordSource σ] {options : CompileOptions Float} {e : Expr Float}

theorem Sanitized.exists_compile_of_lift (sanitized : e.Sanitized) {scale : Float} {source : σ}
    {p : Program Float} (compiled : (e.lift scale source).1.1.compile options = .ok p) :
    ∃ q, e.compile options = .ok q := by
  have lifted_valid := valid_of_compile compiled
  have unexpired := (Program.compile?_eq_ok_iff.mp (compile_eq_ok_iff.mp compiled)).2.1
  have lifted_native := (Program.exists_compile?_iff lifted_valid unexpired).mp
    ⟨p, compile_eq_ok_iff.mp compiled⟩
  have native : ∀ n, e.Reaches n → n.isForeign options.featureCount = false := by
    intro n reaches
    by_cases literal : ∃ v, n = .const v
    · obtain ⟨v, rfl⟩ := literal
      exact sanitized.regular _ reaches
    · have member :=
        sanitized.valid.head_mem_heads_lift scale source reaches (not_exists.mp literal)
      obtain ⟨m, lifted_reaches, same_head⟩ := lifted_valid.exists_reaches_of_mem_heads member
      rw [← Node.isForeign_head, ← same_head, Node.isForeign_head]
      exact lifted_native m lifted_reaches
  obtain ⟨q, compiled⟩ := (Program.exists_compile?_iff sanitized.valid unexpired).mpr native
  exact ⟨q, compile_eq_ok_iff.mpr compiled⟩

theorem Sanitized.reaches_param_lift (sanitized : e.Sanitized) {scale : Float} {source : σ}
    (lifted_valid : (e.lift scale source).1.1.Valid) {i : UInt64} (reaches : e.Reaches (.param i)) :
    (e.lift scale source).1.1.Reaches (.param i) := by
  have member := sanitized.valid.head_mem_heads_lift scale source reaches fun v same => by
    cases same
  obtain ⟨m, lifted_reaches, same_head⟩ := lifted_valid.exists_reaches_of_mem_heads member
  cases m <;> cases same_head
  exact lifted_reaches

theorem length_perturb {σ : Type} [WordSource σ] (scale : Float) (constants values : List Float)
    (source : σ) : (perturb scale constants values source).1.length = values.length := by
  induction values generalizing source with
  | nil => rfl
  | cons v values ih =>
      rw [perturb, List.length_cons, List.length_cons, ih]

theorem lift_values_eq_nil_iff {σ : Type} [WordSource σ] {e : Expr Float} {scale : Float}
    {source : σ} : (e.lift scale source).1.2 = [] ↔ e.liftable = [] := by
  rw [← List.length_eq_zero_iff, lift, length_perturb, List.length_map, List.length_eq_zero_iff]

end Expr

namespace Finetune

variable {σ : Type} [WordSource σ] {settings : Settings} {data : Dataset} {e : Expr Float}

theorem Descent.steps_after (i : Iterate) (d : Descent) : (d.after i).steps = d.steps + 1 :=
  Nat.add_right_comm d.iterates.length 1 _

section Descend

variable {program : Program Float} {steps : Nat} {state : Lbfgs.State Float} {params : List Float}
  {lastLoss : Float}

/-- What comes of a run that may take another step. -/
inductive Proceeds (settings : Settings) (program : Program Float) (data : Dataset) (steps : Nat)
    (state : Lbfgs.State Float) (params : List Float) (lastLoss : Float) : Descent → Prop where
  | late (expired : Deadline.expired ⟨.finetune, settings.timeoutMs⟩ = true) :
      Proceeds settings program data steps state params lastLoss ⟨[], false⟩
  | failed (evaluated : evaluate? program data params = .ok none) :
      Proceeds settings program data steps state params lastLoss ⟨[], true⟩
  | still {loss : Float} {gradient : List Float}
      (evaluated : evaluate? program data params = .ok (some (loss, gradient)))
      (still : (loss - lastLoss).abs < settings.lbfgs.toleranceChange ∨
        (state.step settings.lbfgs params gradient).2.2 = .converged) :
      Proceeds settings program data steps state params lastLoss ⟨[⟨loss, params⟩], false⟩
  | moved {loss : Float} {gradient : List Float} {state' : Lbfgs.State Float} {next : List Float}
      {rest : Descent} (evaluated : evaluate? program data params = .ok (some (loss, gradient)))
      (moved : state.step settings.lbfgs params gradient = (state', next, .moved))
      (descended : descend settings program data steps state' next loss = .ok rest) :
      Proceeds settings program data steps state params lastLoss (rest.after ⟨loss, params⟩)

theorem proceeds_of_descend {d : Descent}
    (descended : descend settings program data (steps + 1) state params lastLoss = .ok d) :
    Proceeds settings program data steps state params lastLoss d := by
  rw [descend] at descended
  split at descended
  · rename_i expired
    cases descended
    exact .late expired
  · obtain ⟨evaluated?, evaluated, descended⟩ := bind_eq_ok_iff.mp descended
    cases evaluated? with
    | none =>
        cases descended
        exact .failed evaluated
    | some found =>
        simp only at descended
        split at descended
        · rename_i unchanged
          cases descended
          exact .still evaluated (.inl unchanged)
        · split at descended
          · rename_i converged
            cases descended
            exact .still evaluated (.inr (by rw [converged]))
          · rename_i moved
            obtain ⟨rest, descended_rest, descended⟩ := bind_eq_ok_iff.mp descended
            cases descended
            exact .moved evaluated moved descended_rest

theorem exists_loss_of_evaluate? {found : Float × List Float}
    (evaluated : evaluate? program data params = .ok (some found)) : ∃ result,
      program.lossAndGradient data.features data.targets params.toArray = .ok result := by
  obtain ⟨result?, absorbed, finite⟩ := bind_eq_ok_iff.mp evaluated
  cases result? with
  | none => cases finite
  | some result => exact ⟨result, Error.absorb_eq_some_iff.mp absorbed⟩

theorem exists_loss_of_descend {d : Descent}
    (descended : descend settings program data steps state params lastLoss = .ok d) :
    ∀ i ∈ d.iterates, ∃ result,
      program.lossAndGradient data.features data.targets i.params.toArray = .ok result := by
  induction steps generalizing state params lastLoss d with
  | zero =>
      cases descended
      simp
  | succ steps ih =>
      cases proceeds_of_descend descended with
      | late | failed => simp
      | still evaluated => simpa using exists_loss_of_evaluate? evaluated
      | moved evaluated _ descended_rest =>
          exact List.forall_mem_cons.mpr
            ⟨exists_loss_of_evaluate? evaluated, ih descended_rest⟩

end Descend

theorem exists_evaluate_of_trainingError {options : CompileOptions Float} {v : Float}
    (trained : trainingError options data e = .ok v) (finite : v.isFinite = true)
    (wide : options.featureCount ≤ data.features.cols) :
    ∃ values, e.evaluate options data.features = .ok values ∧ data.error values = v ∧
      ∀ v ∈ values, v.isFinite = true := by
  obtain ⟨predictions?, absorbed, error_eq⟩ := bind_eq_ok_iff.mp trained
  cases predictions? with
  | none =>
      have undefined : ((0 : Float) / 0).isFinite = false := by decide
      cases error_eq
      exact absurd (undefined.symm.trans finite) Bool.false_ne_true
  | some values =>
      cases error_eq
      obtain ⟨p, compiled, evaluated⟩ := bind_eq_ok_iff.mp (Error.absorb_eq_some_iff.mp absorbed)
      exact ⟨values, Expr.evaluate_eq_of_compile compiled wide data.rows_pos evaluated, rfl,
        (Dataset.isFinite_of_error finite).2⟩

/-- The outcome of a run is the formula as it was, or the sanitized form of the lifted one with the
best iterate put back, if its error is better. -/
theorem conclude_cases {lifted : Expr Float} {d : Descent} {outcome : Outcome}
    (concluded : conclude settings data e lifted d = .ok outcome) :
    outcome.steps = d.steps ∧
      (outcome.status ≠ .tuned ∧ outcome.expr = e ∨
        outcome.status = .tuned ∧
          (∃ i, d.best? = some i ∧
            (lifted.insertParams i.params).sanitize settings.sanitize = .ok outcome.expr) ∧
          ∃ before after, trainingError settings.compile data e = .ok before ∧
            trainingError settings.compile data outcome.expr = .ok after ∧
              isImprovement before after = true) := by
  rw [conclude] at concluded
  split at concluded
  · cases concluded
    exact ⟨rfl, .inl ⟨Status.noConfusion, rfl⟩⟩
  · cases best : d.best? with
    | none =>
        rw [best] at concluded
        cases concluded
        exact ⟨rfl, .inl ⟨Status.noConfusion, rfl⟩⟩
    | some iterate =>
        rw [best] at concluded
        simp only at concluded
        split at concluded
        · cases concluded
          exact ⟨rfl, .inl ⟨Status.noConfusion, rfl⟩⟩
        · rename_i repaired
          obtain ⟨before, trained_before, concluded⟩ := bind_eq_ok_iff.mp concluded
          obtain ⟨after, trained_after, concluded⟩ := bind_eq_ok_iff.mp concluded
          split at concluded
          · rename_i improvement
            cases concluded
            exact ⟨rfl, .inr ⟨rfl, ⟨iterate, rfl, repaired⟩, before, after, trained_before,
              trained_after, improvement⟩⟩
          · cases concluded
            exact ⟨rfl, .inl ⟨Status.noConfusion, rfl⟩⟩

theorem tuned_of_conclude {lifted : Expr Float} {d : Descent} {outcome : Outcome}
    (concluded : conclude settings data e lifted d = .ok outcome)
    (tuned : outcome.status = .tuned) :
    d.iterates ≠ [] ∧
      (∃ i, d.best? = some i ∧
        (lifted.insertParams i.params).sanitize settings.sanitize = .ok outcome.expr) ∧
      ∃ before after, trainingError settings.compile data e = .ok before ∧
        trainingError settings.compile data outcome.expr = .ok after ∧
          isImprovement before after = true := by
  obtain ⟨-, ⟨untuned, -⟩ | ⟨-, ⟨i, best, repaired⟩, trained⟩⟩ := conclude_cases concluded
  · exact absurd tuned untuned
  · exact ⟨fun empty => by simp [Descent.best?, empty] at best, ⟨i, best, repaired⟩, trained⟩

theorem isFinite_of_isImprovement {before after : Float}
    (improvement : isImprovement before after = true) : after.isFinite = true := by
  rw [isImprovement, Bool.and_eq_true] at improvement
  exact improvement.1

/-- An optimization of the formula gets as far as lifting its constants. -/
def Lifts (e : Expr Float) : Prop := e.features ≠ [] ∧ ¬0 < e.paramCount

/-- An optimization of the formula gets as far as a run of the optimizer. -/
structure Runs (settings : Settings) (e : Expr Float) : Prop where
  lifts : Lifts e
  liftable_ne_nil : e.liftable ≠ []
  compiles : ∃ p, (e.parametrize (e.liftable.map Prod.fst)).compile settings.compile = .ok p

/-- The settings ask for nothing that cannot be had: offsets that are needed can be drawn, and a
history that is needed fits. -/
structure Affordable (settings : Settings) (e : Expr Float) : Prop where
  drawable : Lifts e → e.canLift settings.perturbationScale = true
  room : Runs settings e → settings.lbfgs.hasRoom = true

/-- The ways an optimization can go: it ends before there is anything to optimize, it fails for what
the settings ask for, or it runs. -/
inductive Attempts (settings : Settings) (data : Dataset) (maxSteps : Nat) (e : Expr Float)
    (source : σ) : Except Error Outcome → Prop where
  | stays (stays : ¬Runs settings e)
      (drawable : Lifts e → e.canLift settings.perturbationScale = true) {status : Status}
      (untuned : status ≠ .tuned) :
      Attempts settings data maxSteps e source (.ok ⟨e, 0, status⟩)
  | fails (unaffordable : ¬Affordable settings e) (fault : Error) :
      Attempts settings data maxSteps e source (.error fault)
  | runs {program : Program Float} (lifts : Lifts e)
      (compiled : (e.lift settings.perturbationScale source).1.1.compile settings.compile =
        .ok program) (affordable : Affordable settings e) :
      Attempts settings data maxSteps e source (do
        let d ← descend settings program data maxSteps .start
          (e.lift settings.perturbationScale source).1.2 Scalar.posInf
        conclude settings data e (e.lift settings.perturbationScale source).1.1 d)

/-- An optimization draws exactly what lifting in total needs, and fails if that cannot be drawn. -/
theorem finetune_eq (settings : Settings) (data : Dataset) (maxSteps : Nat) (e : Expr Float)
    (source : σ) : finetune settings data maxSteps e source =
      if e.features.isEmpty then .ok ⟨e, 0, .noParameters⟩
      else if 0 < e.paramCount then .ok ⟨e, 0, .compileFailed⟩
      else if !e.canLift settings.perturbationScale then
        .error (.internal "offset range overflow")
      else
        let ((lifted, initial), _) := e.lift settings.perturbationScale source
        if initial.isEmpty then .ok ⟨e, 0, .noParameters⟩
        else
          match lifted.compile settings.compile with
          | .error _ => .ok ⟨e, 0, .compileFailed⟩
          | .ok program =>
            if !settings.lbfgs.hasRoom then .error (.internal "history capacity overflow")
            else (do
              let d ← descend settings program data maxSteps .start initial Scalar.posInf
              conclude settings data e lifted d) := by
  rw [finetune, Expr.lift?_eq]
  cases e.canLift settings.perturbationScale <;> rfl

theorem attempts_finetune (settings : Settings) (data : Dataset) (maxSteps : Nat) (e : Expr Float)
    (source : σ) :
    Attempts settings data maxSteps e source (finetune settings data maxSteps e source) := by
  rw [finetune_eq]
  split
  · rename_i featureless
    have stays : ¬Lifts e := fun lifts => lifts.1 (List.isEmpty_iff.mp featureless)
    exact .stays (fun runs => stays runs.lifts) (fun lifts => absurd lifts stays) Status.noConfusion
  · rename_i featured
    split
    · rename_i counted
      have stays : ¬Lifts e := fun lifts => lifts.2 counted
      exact .stays (fun runs => stays runs.lifts) (fun lifts => absurd lifts stays)
        Status.noConfusion
    · rename_i uncounted
      have lifts : Lifts e := ⟨List.isEmpty_iff.not.mp featured, uncounted⟩
      split
      · rename_i undrawable
        refine .fails (fun affordable => ?_) _
        simp [affordable.drawable lifts] at undrawable
      · rename_i drawable
        rw [Bool.not_eq_true, Bool.not_eq_false'] at drawable
        dsimp only
        split
        · rename_i none_lifted
          refine .stays (fun runs => runs.liftable_ne_nil ?_) (fun _ => drawable)
            Status.noConfusion
          exact Expr.lift_values_eq_nil_iff.mp (List.isEmpty_iff.mp none_lifted)
        · rename_i some_lifted
          split
          · rename_i fault refused
            refine .stays (fun runs => ?_) (fun _ => drawable) Status.noConfusion
            obtain ⟨p, compiled⟩ := runs.compiles
            cases refused.symm.trans compiled
          · rename_i program compiled
            have runs : Runs settings e := ⟨lifts, fun none_lifted => some_lifted
              (List.isEmpty_iff.mpr (Expr.lift_values_eq_nil_iff.mpr none_lifted)), program,
                compiled⟩
            split
            · rename_i roomless
              refine .fails (fun affordable => ?_) _
              simp [affordable.room runs] at roomless
            · rename_i room
              rw [Bool.not_eq_true, Bool.not_eq_false'] at room
              exact .runs lifts compiled ⟨fun _ => drawable, fun _ => room⟩

theorem steps_eq_zero_or_exists_descend {maxSteps : Nat} {source : σ} {outcome : Outcome}
    (finished : finetune settings data maxSteps e source = .ok outcome) :
    (outcome.steps = 0 ∧ outcome.status ≠ .tuned ∧ outcome.expr = e) ∨
      ¬0 < e.paramCount ∧ ∃ program initial d,
      (e.lift settings.perturbationScale source).1.1.compile settings.compile = .ok program ∧
        descend settings program data maxSteps .start initial Scalar.posInf = .ok d ∧
        conclude settings data e (e.lift settings.perturbationScale source).1.1 d =
          .ok outcome := by
  have attempts := attempts_finetune settings data maxSteps e source
  generalize finetune settings data maxSteps e source = result at attempts finished
  cases attempts with
  | stays _ _ untuned =>
      cases finished
      exact .inl ⟨rfl, untuned, rfl⟩
  | fails => cases finished
  | runs lifts compiled _ =>
      obtain ⟨d, descended, concluded⟩ := bind_eq_ok_iff.mp finished
      exact .inr ⟨lifts.2, _, _, d, compiled, descended, concluded⟩

/-- A formula that steps were spent on can be evaluated, unless evaluation crashes. -/
theorem crashOnly_of_steps {maxSteps : Nat} {source : σ} {outcome : Outcome}
    (sanitized : e.Sanitized) (wide : settings.compile.featureCount ≤ data.features.cols)
    (finished : finetune settings data maxSteps e source = .ok outcome)
    (spent : 0 < outcome.steps) :
    CrashOnly (e.evaluate settings.compile data.features) := by
  rcases steps_eq_zero_or_exists_descend finished with
    ⟨none_spent, -⟩ | ⟨uncounted, program, initial, d, compiled, -, -⟩
  · exact absurd none_spent (Nat.ne_of_gt spent)
  · obtain ⟨p, compiled⟩ := sanitized.exists_compile_of_lift compiled
    refine Expr.crashOnly_evaluate compiled wide ?_
    exact (Expr.lowers_of_compile compiled).paramCount_eq_zero fun i reaches =>
      sanitized.valid.eq_uncountable uncounted reaches

/-- A formula whose constants were optimized is closed, and the optimized one has finite
predictions. -/
theorem isClosed_of_tuned {maxSteps : Nat} {source : σ} {outcome : Outcome}
    (sanitized : e.Sanitized) (wide : settings.compile.featureCount ≤ data.features.cols)
    (finished : finetune settings data maxSteps e source = .ok outcome)
    (tuned : outcome.status = .tuned) :
    e.IsClosed settings.compile.featureCount ∧
      ∃ values, outcome.expr.evaluate settings.compile data.features = .ok values ∧
        ∀ v ∈ values, v.isFinite = true := by
  rcases steps_eq_zero_or_exists_descend finished with
    ⟨-, untuned, -⟩ | ⟨uncounted, program, initial, d, compiled, descended, concluded⟩
  · exact absurd tuned untuned
  · obtain ⟨nonempty, -, before, after, -, trained, improvement⟩ :=
      tuned_of_conclude concluded tuned
    obtain ⟨values, evaluated, -, finite⟩ := exists_evaluate_of_trainingError trained
      (isFinite_of_isImprovement improvement) wide
    refine ⟨?_, values, evaluated, finite⟩
    obtain ⟨iterate, member⟩ := List.exists_mem_of_ne_nil _ nonempty
    obtain ⟨result, evaluated⟩ := exists_loss_of_descend descended iterate member
    obtain ⟨supplied, row, buffer, slots, run⟩ :=
      program.exists_forward_of_lossAndGradient evaluated
    obtain ⟨p, own_compiled⟩ := sanitized.exists_compile_of_lift compiled
    have unexpired := (Program.compile?_eq_ok_iff.mp (Expr.compile_eq_ok_iff.mp compiled)).2.1
    refine sanitized.isClosed_iff.mpr ⟨?_, fun i reaches => ?_⟩
    · exact (Program.exists_compile?_iff sanitized.valid unexpired).mp
        ⟨p, Expr.compile_eq_ok_iff.mp own_compiled⟩
    · obtain rfl := sanitized.valid.eq_uncountable uncounted reaches
      have lifted_valid := Expr.valid_of_compile compiled
      exact (Expr.lowers_of_compile compiled).forward_ne_ok lifted_valid
        (sanitized.reaches_param_lift lifted_valid reaches) supplied row buffer slots run

end Finetune

end FormulaFit
