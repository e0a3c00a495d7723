import FormulaFit.Proofs.Refine.Accounting
import FormulaFit.Refine.Refiner

/-!
# A model on its training data

Fitting scores a candidate on the imputed training features with the configured time limit;
predicting imputes again and compiles with the default limit.  Both reach the same numbers: a
limit decides only whether there are predictions, the imputation is replayed, and whatever replaces
a candidate is scored anew.  Hence every model reproduces its training error.
-/

namespace FormulaFit

theorem Dataset.of?_eq_ok {features : Matrix Float} {targets : List Float} {data : Dataset}
    (built : Dataset.of? features targets = .ok data) :
    data.features = features ∧ data.targets = targets := by
  unfold Dataset.of? at built
  split at built
  · split at built
    · cases built
    · split at built
      · cases built
        exact ⟨rfl, rfl⟩
      · cases built
  · cases built

theorem Program.length_of_evaluate {α : Type} [Scalar α] {p : Program α} {x : Matrix α}
    {params : Array α} {values : List α} (evaluated : p.evaluate x params = .ok values) :
    values.length = x.rows := by
  rw [evaluate, bind_eq_ok_iff] at evaluated
  obtain ⟨_, -, evaluated⟩ := evaluated
  rw [length_of_evaluateRows evaluated, Matrix.length_rowList]

namespace Expr

variable {options : CompileOptions Float} {e : Expr Float} {x : Matrix Float} {values : List Float}

theorem length_of_evaluate (evaluated : e.evaluate options x = .ok values) :
    values.length = x.rows := by
  rw [evaluate] at evaluated
  split at evaluated
  · cases evaluated
    exact List.length_replicate
  · obtain ⟨p, -, evaluated⟩ := bind_eq_ok_iff.mp evaluated
    split at evaluated
    · obtain ⟨once, -, evaluated⟩ := bind_eq_ok_iff.mp evaluated
      cases once with
      | nil => cases evaluated
      | cons v rest =>
          cases evaluated
          exact List.length_replicate
    · exact Program.length_of_evaluate evaluated

theorem compile_of_unexpired {p : Program Float} (compiled : e.compile options = .ok p)
    {limit : Nat} (unexpired : limit ≠ 0) :
    e.compile { options with timeoutMs := limit } = .ok p := by
  obtain ⟨valid, -, drafted⟩ := Program.compile?_eq_ok_iff.mp (compile_eq_ok_iff.mp compiled)
  exact compile_eq_ok_iff.mpr (Program.compile?_eq_ok_iff.mpr ⟨valid, unexpired, drafted⟩)

theorem evaluate_of_unexpired (evaluated : e.evaluate options x = .ok values) {limit : Nat}
    (unexpired : limit ≠ 0) : e.evaluate { options with timeoutMs := limit } x = .ok values := by
  rw [evaluate] at evaluated ⊢
  cases literal : e.constant? with
  | some v => rwa [literal] at evaluated
  | none =>
      rw [literal] at evaluated
      obtain ⟨p, compiled, evaluated⟩ := bind_eq_ok_iff.mp evaluated
      exact bind_eq_ok_iff.mpr ⟨p, compile_of_unexpired compiled unexpired, evaluated⟩

theorem evaluate_constant {v : Float} (finite : v.isFinite = true) :
    (constant v).evaluate options x = .ok (List.replicate x.rows v) := by
  have literal : (constant v).constant? = some v := constant?_eq_some_iff.mpr ⟨rfl, finite⟩
  rw [evaluate, literal]

end Expr

namespace Refinement

variable {config : Config} {data : Dataset}

/-- The scores of a candidate are those of its formula. -/
structure Scored (config : Config) (data : Dataset) (c : Candidate) : Prop where
  error_eq : ∃ values, evaluation config data c.expr = .ok values ∧
    c.error = some (data.error values)
  complexity_eq : c.complexity = some (c.expr.complexity config.complexityMetric)

/-- Whichever form of a candidate was evaluated, the predictions are those of the form kept. -/
theorem evaluation_of_predictions {w : Working} {c : Candidate} {values : List Float}
    (predicted : predictions config data w = (c, .ok values)) :
    evaluation config data c.expr = .ok values := by
  rw [predictions] at predicted
  simp only at predicted
  split at predicted
  · split at predicted
    · cases predicted
    · obtain ⟨rfl, evaluated⟩ := Prod.mk.inj predicted
      exact evaluated
  · obtain ⟨rfl, evaluated⟩ := Prod.mk.inj predicted
    exact evaluated

theorem evaluation_mean (config : Config) (finite : data.targetMean.isFinite = true) :
    evaluation config data (.constant data.targetMean) =
      .ok (List.replicate data.rowCount data.targetMean) := by
  rw [evaluation, Expr.evaluate_constant finite, data.rows_eq]
  rfl

theorem scored_of_scoreAll (finite : data.targetMean.isFinite = true) {pool : List Working}
    {before after : Summary} {candidates : List Candidate}
    (finished : scoreAll config data pool before = .ok (candidates, after)) :
    ∀ c ∈ candidates, Scored config data c := by
  induction pool generalizing before candidates with
  | nil =>
      cases finished
      simp
  | cons w pool ih =>
      rw [scoreAll] at finished
      split at finished
      · rename_i c values predicted
        cases finite_values : values.all Float.isFinite with
        | true =>
            simp only [finite_values, if_true] at finished
            obtain ⟨⟨later, counted⟩, rest, candidates_eq⟩ := bind_eq_ok_iff.mp finished
            cases candidates_eq
            have evaluated := evaluation_of_predictions predicted
            exact List.forall_mem_cons.mpr ⟨⟨⟨values, evaluated, rfl⟩, rfl⟩, ih rest⟩
        | false =>
            simp only [finite_values] at finished
            obtain ⟨⟨later, counted⟩, rest, candidates_eq⟩ := bind_eq_ok_iff.mp finished
            cases candidates_eq
            have evaluated := evaluation_mean config finite
            exact List.forall_mem_cons.mpr ⟨⟨⟨_, evaluated, rfl⟩, rfl⟩, ih rest⟩
      · split at finished
        · exact ih finished
        · cases finished

/-- The scores of a winner are those of its formula, also when the pool was empty. -/
theorem scored_winner (finite : data.targetMean.isFinite = true) {raw : List String}
    {r : Refinement} (refined : refine config raw data = .ok r) : Scored config data r.winner := by
  obtain ⟨pool, summary, candidates, summary', -, finished, candidates_eq, winner_eq, -⟩ :=
    exists_stages_of_refine refined
  have member := List.mem_of_getElem? winner_eq
  rcases unscored_or_scored candidates_eq with ⟨-, made_up⟩ | ⟨-, same⟩
  · rw [made_up, List.mem_singleton] at member
    rw [member]
    exact ⟨⟨_, evaluation_mean config finite, rfl⟩, rfl⟩
  · exact scored_of_scoreAll finite finished _ (same ▸ member)

end Refinement

namespace Refiner

theorem rows_of_impute {r : Refiner} (column_mean : r.imputer = .columnMean)
    {imputation : Option Imputation} {x features : Matrix Float}
    (imputed : r.impute x = .ok (imputation, features)) : features.rows = x.rows := by
  rw [impute, column_mean] at imputed
  split at imputed
  · obtain ⟨⟨learned, filled⟩, fitted, imputed⟩ := bind_eq_ok_iff.mp imputed
    obtain ⟨filled', applied, fitted⟩ := bind_eq_ok_iff.mp fitted
    cases fitted
    cases imputed
    change Matrix.fill x.columnMeans x = _ at applied
    rw [Matrix.fill] at applied
    split at applied <;> cases applied
    rfl
  · cases imputed
    rfl

/-- The imputation of a fit is replayed on its own training features. -/
theorem complete_of_impute {r : Refiner} (column_mean : r.imputer = .columnMean)
    {imputation : Option Imputation} {x features : Matrix Float}
    (imputed : r.impute x = .ok (imputation, features)) {m : Model}
    (replayed : m.imputation = imputation) : m.complete x = .ok features := by
  rw [impute, column_mean] at imputed
  rw [Model.complete, replayed]
  split at imputed
  · rename_i missing
    obtain ⟨⟨learned, filled⟩, fitted, imputed⟩ := bind_eq_ok_iff.mp imputed
    obtain ⟨filled', applied, fitted⟩ := bind_eq_ok_iff.mp fitted
    cases fitted
    cases imputed
    rw [if_pos missing]
    exact applied
  · rename_i complete
    cases imputed
    exact if_neg complete

/-- On its training features a model predicts one value for every row, with the training error and
the complexity that the fit recorded, whatever kind of winner it has. -/
theorem predict_of_fit (config : Config) (r : Refiner) (raw : List String) (x : Matrix Float)
    (y : List Float) (m : Model) (accepted : Refiner.ofConfig config = .ok r)
    (fitted : r.fit raw x y = .ok m) (finite : (laneMean y).isFinite = true) :
    ∃ values, m.predict x = .ok values ∧ values.length = x.rows ∧
      meanSquaredError y values = m.trainingError ∧ r.complexity m = m.complexity := by
  obtain ⟨_, -, accepted⟩ := bind_eq_ok_iff.mp accepted
  obtain rfl : ⟨config, .columnMean⟩ = r := Except.ok.inj accepted
  obtain ⟨⟨imputation, features⟩, imputed, fitted⟩ := bind_eq_ok_iff.mp fitted
  obtain ⟨data, built, fitted⟩ := bind_eq_ok_iff.mp fitted
  obtain ⟨refinement, refined, fitted⟩ := bind_eq_ok_iff.mp fitted
  obtain rfl : Model.ofCandidate refinement.winner refinement.summary config.divisionPlaceholder
    imputation = m := Except.ok.inj fitted
  obtain ⟨features_eq, targets_eq⟩ := Dataset.of?_eq_ok built
  have mean_finite : data.targetMean.isFinite = true := by rwa [Dataset.targetMean, targets_eq]
  obtain ⟨⟨values, evaluated, error_eq⟩, complexity_eq⟩ :=
    Refinement.scored_winner mean_finite refined
  have completed : (Model.ofCandidate refinement.winner refinement.summary
      config.divisionPlaceholder imputation).complete x = .ok features :=
    complete_of_impute rfl imputed rfl
  rw [Refinement.evaluation, Dataset.featureCount, features_eq] at evaluated
  have predicted := Expr.evaluate_of_unexpired evaluated (show 5000 ≠ 0 by decide)
  refine ⟨values, ?_, ?_, ?_, ?_⟩
  · rw [Model.predict, completed]
    change (Expr.evaluate _ _ _).mapError _ = _
    exact congrArg (fun result => Except.mapError Expr.asNumericFault result) predicted
  · rw [Expr.length_of_evaluate evaluated]
    exact rows_of_impute rfl imputed
  · rw [Model.ofCandidate, error_eq, Option.getD_some, Dataset.error, targets_eq]
  · rw [complexity, Model.ofCandidate, complexity_eq, Option.getD_some]

/-- A column with a missing entry. -/
def gappyColumn : Matrix Float := Matrix.ofColumn [1, 0 / 0, 3]

/-- Targets that grow along with the column. -/
def risingTargets : List Float := [2, 4, 6]

theorem gappyColumn_predicted :
    ∃ r m, Refiner.ofConfig Refinement.oneStep = .ok r ∧
      r.fit ["x_0 +", "1.5*x_0"] gappyColumn risingTargets = .ok m ∧
      (laneMean risingTargets).isFinite = true ∧ gappyColumn.hasMissing = true ∧
      ∃ values, m.predict gappyColumn = .ok values ∧ values.length = gappyColumn.rows ∧
        meanSquaredError risingTargets values = m.trainingError ∧
          r.complexity m = m.complexity := by
  have fitted_some : ((Refiner.ofConfig Refinement.oneStep).toOption.bind fun r =>
      (r.fit ["x_0 +", "1.5*x_0"] gappyColumn risingTargets).toOption).isSome = true := by
    decide +kernel
  cases accepted : Refiner.ofConfig Refinement.oneStep with
  | error e =>
      rw [accepted] at fitted_some
      cases fitted_some
  | ok r =>
      rw [accepted] at fitted_some
      cases fitted : r.fit ["x_0 +", "1.5*x_0"] gappyColumn risingTargets with
      | error e =>
          simp [fitted, Except.toOption] at fitted_some
      | ok m =>
          have finite : (laneMean risingTargets).isFinite = true := by decide +kernel
          have missing : gappyColumn.hasMissing = true := by decide +kernel
          exact ⟨r, m, rfl, fitted, finite, missing,
            predict_of_fit _ r _ _ _ m accepted fitted finite⟩

end Refiner

end FormulaFit
