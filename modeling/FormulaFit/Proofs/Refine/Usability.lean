import FormulaFit.Proofs.Optimize.Outcomes
import FormulaFit.Proofs.Refine.Fitting
import FormulaFit.Proofs.Selection.Winners

/-!
# Fitting always yields a model

No stage of a refinement fails on formulas whose coefficients can be counted: what cannot be
evaluated is dropped, what predicts something infinite or undefined is replaced by the mean of the
targets, and the mean stands in for an empty pool.  So there is a winner, and it is usable unless it
is the mean and the sum of the targets overflows.
-/

namespace FormulaFit

namespace Expr

/-- What keeps a determined formula from being evaluated is no reason to give up. -/
theorem Determined.isRecoverable_of_evaluate {e : Expr Float} (determined : e.Determined)
    {options : CompileOptions Float} {x : Matrix Float} (wide : options.featureCount ≤ x.cols)
    (rows_pos : 0 < x.rows) {fault : Error} (failed : e.evaluate options x = .error fault) :
    fault.isRecoverable = true := by
  cases compiled : e.compile options with
  | error reason =>
      have recoverable : reason.isRecoverable = true := by
        rw [compile] at compiled
        cases drafted : Program.compile? options e with
        | ok p => simp [drafted, Except.mapError] at compiled
        | error cause =>
            rw [drafted] at compiled
            cases compiled
            cases cause <;> rfl
      rw [evaluate, compiled] at failed
      split at failed
      · cases failed
      · cases failed
        exact recoverable
  | ok p =>
      have compiled' := compile_eq_ok_iff.mp compiled
      have unexpired := (Program.compile?_eq_ok_iff.mp compiled').2.1
      have native := (Program.exists_compile?_iff determined.valid unexpired).mp ⟨p, compiled'⟩
      have closed := determined.isClosed_iff.mpr ⟨native, determined.param_free⟩
      obtain ⟨values, evaluated⟩ := determined.exists_evaluate closed unexpired wide rows_pos
      rw [failed] at evaluated
      cases evaluated

end Expr

namespace Selection

theorem exists_selectCandidate {criterion : Criterion Float} {candidates : List Candidate}
    (nonempty : candidates ≠ [])
    (weighs : ∀ rci, criterion = .weighted rci → Config.isWeight rci = true)
    (rated : ∀ c ∈ candidates, ∃ pair, scored c = .ok pair) :
    ∃ i, selectCandidate criterion candidates = .ok i ∧ i < candidates.length := by
  have each : ∀ c ∈ candidates, Yields (scored c) fun _ => True := fun c member => by
    obtain ⟨pair, scored_eq⟩ := rated c member
    exact ⟨pair, scored_eq, trivial⟩
  obtain ⟨pairs, mapped, -⟩ := yields_mapM each
  have length_eq := (mapM_eq_ok_iff.mp mapped).length_eq
  have pairs_ne : pairs.map Prod.fst ≠ [] := by
    rw [← List.length_pos_iff, List.length_map, ← length_eq]
    exact List.length_pos_iff.mpr nonempty
  have both : (pairs.map Prod.fst).length = (pairs.map Prod.snd).length := by
    rw [List.length_map, List.length_map]
  have winner_lt := winner_lt criterion both pairs_ne
  rw [List.length_map, ← length_eq] at winner_lt
  exact ⟨_, bind_eq_ok_iff.mpr ⟨pairs, mapped, select_eq_ok both pairs_ne weighs⟩, winner_lt⟩

end Selection

namespace Config

theorem isFinite_of_checkFinite {field : String} {v : Float}
    (checked : checkFinite field v = .ok ()) : v.isFinite = true := by
  rw [checkFinite] at checked
  split at checked
  · assumption
  · cases checked

theorem ok_of_unless {ε β : Type} {refused : Bool} {e : ε} {next : Unit → Except ε β} {b : β}
    (finished : (if refused = true then do next (← throw e) else next ()) = .ok b) :
    refused = false ∧ next () = .ok b := by
  cases refused with
  | true => cases finished
  | false => exact ⟨rfl, finished⟩

theorem of_checkNonNegative {field : String} {v : Float}
    (checked : checkNonNegative field v = .ok ()) : v.isFinite = true ∧ 0 ≤ v := by
  rw [checkNonNegative] at checked
  split at checked
  · rename_i holds
    rw [Bool.and_eq_true, decide_eq_true_eq] at holds
    exact holds
  · cases checked

/-- What a configuration that is accepted has been checked for. -/
structure Checked (config : Config) : Prop where
  weight : ∀ rci, config.rci = some rci → isWeight rci = true
  perturbationScale : config.perturbationScale.isFinite = true ∧ 0 ≤ config.perturbationScale
  degeneratePlaceholder : config.degeneratePlaceholder.isFinite = true
  divisionPlaceholder : config.divisionPlaceholder.isFinite = true

theorem checked_of_validate {config : Config} (accepted : config.validate = .ok ()) :
    config.Checked := by
  obtain ⟨weighed, accepted⟩ : (∀ rci, config.rci = some rci → isWeight rci = true) ∧
      { config with rci := none }.validate = .ok () := by
    rw [validate] at accepted
    cases weight : config.rci with
    | none =>
        rw [weight] at accepted
        exact ⟨fun rci same => (by cases same), accepted⟩
    | some rci =>
        rw [weight] at accepted
        obtain ⟨inside, accepted⟩ := ok_of_unless accepted
        refine ⟨fun rci' same => ?_, accepted⟩
        rw [← Option.some.inj same]
        simpa using inside
  rw [validate] at accepted
  obtain ⟨-, accepted⟩ := ok_of_unless accepted
  obtain ⟨_, -, accepted⟩ := bind_eq_ok_iff.mp accepted
  obtain ⟨_, -, accepted⟩ := bind_eq_ok_iff.mp accepted
  obtain ⟨_, scale, accepted⟩ := bind_eq_ok_iff.mp accepted
  obtain ⟨_, degenerate, accepted⟩ := bind_eq_ok_iff.mp accepted
  obtain ⟨_, division, -⟩ := bind_eq_ok_iff.mp accepted
  exact ⟨weighed, of_checkNonNegative scale, isFinite_of_checkFinite degenerate,
    isFinite_of_checkFinite division⟩

/-- A configuration that is accepted has finite placeholders, and no weight but one between zero and
one. -/
theorem of_validate {config : Config} (accepted : config.validate = .ok ()) :
    config.degeneratePlaceholder.isFinite = true ∧ config.divisionPlaceholder.isFinite = true ∧
      ∀ rci, config.criterion = .weighted rci → isWeight rci = true := by
  have checked := checked_of_validate accepted
  refine ⟨checked.degeneratePlaceholder, checked.divisionPlaceholder, fun rci weighted => ?_⟩
  rw [criterion] at weighted
  split at weighted
  · rename_i rci' weight
    cases weighted
    exact checked.weight rci weight
  · cases weighted

end Config

namespace Refinement

variable {config : Config} {data : Dataset}

/-- The formulas of a candidate are determined, and it is not given up. -/
structure Prepared (w : Working) : Prop where
  sanitized : w.sanitized.Determined
  expr : w.candidate.expr.Determined
  status_ne : w.candidate.status ≠ .degraded

/-- A candidate with a determined formula and finite predictions. -/
structure Sound (config : Config) (data : Dataset) (c : Candidate) : Prop where
  determined : c.expr.Determined
  status_ne : c.status ≠ .degraded
  finite : ∃ values, evaluation config data c.expr = .ok values ∧ ∀ v ∈ values, v.isFinite = true

/-- A candidate as selection finds it: with both scores, and either sound or the mean of the
targets. -/
structure Rated (config : Config) (data : Dataset) (c : Candidate) : Prop where
  scored : ∃ pair, Selection.scored c = .ok pair
  progress : Sound config data c ∨ c.status = .degraded ∧ c.expr = .constant data.targetMean

/-- No text and no setting stops the refinement of a pool. -/
structure Manageable (config : Config) (raw : List String) (data : Dataset) : Prop where
  /-- No text reads the coefficient that cannot be counted. -/
  countable : ∀ text ∈ raw, ∀ e, Formula.parse text = .ok e →
    ¬e.Reaches (.param Program.uncountable)
  /-- The offsets of constants that occur more than once can be drawn. -/
  drawable : isTuning config data = true → ∀ text ∈ raw, ∀ s, repair config text = .ok s →
    s.canLift config.perturbationScale = true
  /-- There is room for the history. -/
  room : isTuning config data = true → (config.finetuneSettings data.featureCount).lbfgs.hasRoom

/-- No text reads the coefficient that cannot be counted. -/
def Countable (raw : List String) : Prop :=
  ∀ text ∈ raw, ∀ e, Formula.parse text = .ok e → ¬e.Reaches (.param Program.uncountable)

/-- No optimization of a candidate asks for what cannot be had. -/
def Affordable (config : Config) (raw : List String) (data : Dataset) : Prop :=
  isTuning config data = true → ∀ w ∈ repaired config 0 raw,
    Finetune.Affordable (config.finetuneSettings data.featureCount) w.sanitized

theorem Manageable.affordable {raw : List String} (manageable : Manageable config raw data) :
    Affordable config raw data := by
  intro tuning w member
  obtain ⟨i, text, s, found, fixed, rfl⟩ := mem_repaired_iff.mp member
  exact ⟨fun _ => manageable.drawable tuning text (List.mem_of_getElem? found) s fixed,
    fun _ => manageable.room tuning⟩

section Stages

variable (finite : config.degeneratePlaceholder.isFinite = true)
include finite

theorem determined_of_repair {text : String}
    (countable : ∀ e, Formula.parse text = .ok e → ¬e.Reaches (.param Program.uncountable))
    {s : Expr Float} (repaired : repair config text = .ok s) : s.Determined := by
  obtain ⟨e, is_read, repaired⟩ := bind_eq_ok_iff.mp repaired
  exact Expr.determined_of_sanitize repaired finite (countable e (read_eq_ok_iff.mp is_read))

theorem yields_tune {seed budget : UInt64} {w : Working} (determined : w.sanitized.Determined)
    (affordable : Finetune.Affordable (config.finetuneSettings data.featureCount) w.sanitized)
    (fresh : Fresh w) : Yields (tune config data seed budget w) Prepared := by
  let settings := config.finetuneSettings data.featureCount
  have finite_placeholder : settings.sanitize.placeholder.isFinite = true := finite
  obtain ⟨outcome, finished, outcome_determined⟩ : Yields (Finetune.finetune settings data
      budget.toNat w.sanitized (generator seed w.candidate.source)) fun outcome =>
        outcome.expr.Determined :=
    Finetune.yields_finetune determined finite_placeholder affordable budget.toNat _
  have untouched : Untouched config data w := fresh.untouched
  rw [tune, finished]
  simp only [bind, Except.bind, pure, Except.pure]
  split
  · exact ⟨_, rfl, determined, outcome_determined, by simp [Candidate.withFinetuned]⟩
  · refine ⟨_, rfl, determined, ?_, ?_⟩
    · rw [Candidate.withAttempt, untouched.expr_eq]
      exact determined
    · rw [Candidate.withAttempt, untouched.status_eq]
      decide

omit finite in
theorem yields_turns {optimize : UInt64 → Working → Except Error Working} {P : Working → Prop}
    {pool : List Working} (each : ∀ w ∈ pool, ∀ budget, Yields (optimize budget w) P) (i : Nat)
    (ledger : Budget.Ledger) (source : ChaCha.Generator) :
    Yields (turns optimize i ledger source pool) fun taken => ∀ t ∈ taken, P t.working := by
  induction pool generalizing i ledger source with
  | nil => exact ⟨[], rfl, by simp⟩
  | cons w pool ih =>
      obtain ⟨first, later⟩ := List.forall_mem_cons.mp each
      rw [turns]
      exact (first (ledger.allotment i)).bind fun tuned holds => (ih later _ _ _).bind
        fun taken rest => ⟨_, rfl, List.forall_mem_cons.mpr ⟨holds, rest⟩⟩

omit finite in
theorem yields_tuneAll {seed : UInt64} {P : Working → Prop} {pool : List Working}
    (each : ∀ w ∈ pool, ∀ budget, Yields (tune config data seed budget w) P) :
    Yields (tuneAll config data seed pool) fun results => ∀ w ∈ results, P w := by
  cases shared : config.finetuneMaxEvals with
  | none =>
      rw [tuneAll_unshared shared]
      exact yields_mapM fun w member => each w member config.finetuneSteps
  | some total =>
      rw [tuneAll_shared shared]
      dsimp only
      split
      · exact yields_mapM fun item member => each item.1 (List.of_mem_zip member).1 item.2
      · refine (yields_turns each 0 _ _).bind fun taken holds => ⟨_, rfl, fun w member => ?_⟩
        obtain ⟨t, taken_member, rfl⟩ := List.mem_map.mp member
        exact holds t taken_member

omit finite in
theorem Fresh.prepared {w : Working} (fresh : Fresh w) (determined : w.sanitized.Determined) :
    Prepared w where
  sanitized := determined
  expr := by
    rw [fresh.candidate_eq]
    exact determined
  status_ne := by
    rw [fresh.candidate_eq]
    exact CandidateStatus.noConfusion

theorem yields_finetuneStage {raw : List String} (countable : Countable raw)
    (affordable : Affordable config raw data) (seed : UInt64) (summary : Summary) :
    Yields (finetuneStage config data seed (repaired config 0 raw) summary) fun staged =>
      ∀ w ∈ staged.1, Prepared w := by
  have determined : ∀ w ∈ repaired config 0 raw, w.sanitized.Determined := fun w member => by
    obtain ⟨i, text, s, found, fixed, rfl⟩ := mem_repaired_iff.mp member
    exact determined_of_repair finite (countable text (List.mem_of_getElem? found)) fixed
  rw [finetuneStage]
  split
  · rename_i tuning
    refine (yields_tuneAll fun w member budget => ?_).bind fun pool prepared => ⟨_, rfl, prepared⟩
    exact yields_tune finite (determined w member) (affordable tuning w member)
      (fresh_of_mem_repaired member)
  · exact ⟨_, rfl, fun w member => (fresh_of_mem_repaired member).prepared (determined w member)⟩

end Stages

/-- Whichever form of a prepared candidate is evaluated, it is the one kept, and it is
determined. -/
theorem predictions_of_prepared (config : Config) (data : Dataset) {w : Working}
    (prepared : Prepared w) :
    ∃ c result, predictions config data w = (c, result) ∧ c.expr.Determined ∧
      c.status ≠ .degraded ∧ evaluation config data c.expr = result := by
  rw [predictions]
  simp only
  split
  · rename_i stage limitMs late
    split
    · exact ⟨_, _, rfl, prepared.expr, prepared.status_ne, late⟩
    · exact ⟨_, _, rfl, prepared.sanitized, by simp, rfl⟩
  · exact ⟨_, _, rfl, prepared.expr, prepared.status_ne, rfl⟩

theorem yields_scoreAll {pool : List Working} (prepared : ∀ w ∈ pool, Prepared w)
    (summary : Summary) :
    Yields (scoreAll config data pool summary) fun result =>
      ∀ c ∈ result.1, Rated config data c := by
  induction pool generalizing summary with
  | nil => exact ⟨_, rfl, by simp⟩
  | cons w pool ih =>
      obtain ⟨prepared_w, later⟩ := List.forall_mem_cons.mp prepared
      obtain ⟨c, result, predicted, determined, status_ne, evaluated⟩ :=
        predictions_of_prepared config data prepared_w
      rw [scoreAll, predicted]
      cases result with
      | error fault =>
          have recoverable : fault.isRecoverable = true :=
            determined.isRecoverable_of_evaluate (Nat.le_refl _) data.rows_pos evaluated
          simp only [recoverable, if_true]
          exact ih later _
      | ok values =>
          simp only
          refine (ih later _).bind fun rest rated =>
            ⟨_, rfl, List.forall_mem_cons.mpr ⟨?_, rated⟩⟩
          cases finite_values : values.all Float.isFinite with
          | true =>
              exact ⟨⟨_, rfl⟩, .inl ⟨determined, status_ne, values, evaluated,
                List.all_eq_true.mp finite_values⟩⟩
          | false => exact ⟨⟨_, rfl⟩, .inr ⟨rfl, rfl⟩⟩

theorem rated_fallback (config : Config) (data : Dataset) (source : Nat) :
    Rated config data (fallback config data source) := ⟨⟨_, rfl⟩, .inr ⟨rfl, rfl⟩⟩

theorem exists_winner {criterion : Criterion Float} {candidates : List Candidate}
    (nonempty : candidates ≠ [])
    (weighs : ∀ rci, criterion = .weighted rci → Config.isWeight rci = true)
    (scored : ∀ c ∈ candidates, ∃ pair, Selection.scored c = .ok pair) :
    ∃ i c, Selection.selectCandidate criterion candidates = .ok i ∧ candidates[i]? = some c ∧
      c ∈ candidates := by
  obtain ⟨i, selected, i_lt⟩ := Selection.exists_selectCandidate nonempty weighs scored
  exact ⟨i, candidates[i], selected, List.getElem?_eq_getElem i_lt, List.getElem_mem i_lt⟩

theorem yields_refine_of_stages {raw : List String} {P : List Working × Summary → Prop}
    {Q : Candidate → Prop} (accepted : config.validate = .ok ())
    (optimizes : ∀ summary, Yields
      (finetuneStage config data (config.randomState.getD 0) (repaired config 0 raw) summary) P)
    (scores : ∀ staged, P staged →
      Yields (scoreAll config data staged.1 staged.2) fun result => ∀ c ∈ result.1, Q c)
    (made_up : Q (fallback config data raw.length))
    (scored : ∀ c, Q c → ∃ pair, Selection.scored c = .ok pair) :
    Yields (refine config raw data) fun r => Q r.winner := by
  obtain ⟨-, -, weighs⟩ := Config.of_validate accepted
  rw [refine, accepted, sanitizeAll_eq]
  refine (optimizes _).bind fun staged holds => ?_
  refine (scores staged holds).bind fun result each => ?_
  let candidates := if result.1.isEmpty then [fallback config data raw.length] else result.1
  obtain ⟨nonempty, each⟩ : candidates ≠ [] ∧ ∀ c ∈ candidates, Q c := by
    dsimp only [candidates]
    split
    · exact ⟨List.cons_ne_nil _ [], List.forall_mem_singleton.mpr made_up⟩
    · rename_i occupied
      exact ⟨by simpa using occupied, each⟩
  obtain ⟨i, c, selected, chosen, member⟩ := exists_winner nonempty weighs
    fun c member => scored c (each c member)
  change Yields (Selection.selectCandidate config.criterion candidates >>= _) _
  rw [selected]
  simp only [bind, Except.bind]
  rw [show (if result.1.isEmpty then [fallback config data raw.length] else result.1)[i]? = some c
    from chosen]
  exact ⟨_, rfl, each c member⟩

theorem yields_refine_of_affordable {raw : List String} (accepted : config.validate = .ok ())
    (countable : Countable raw) (affordable : Affordable config raw data) :
    Yields (refine config raw data) fun r => Rated config data r.winner := by
  obtain ⟨finite, -⟩ := Config.of_validate accepted
  exact yields_refine_of_stages accepted (yields_finetuneStage finite countable affordable _)
    (fun staged prepared => yields_scoreAll prepared _) (rated_fallback config data raw.length)
    fun c rated => rated.scored

/-- A manageable refinement has a winner. -/
theorem yields_refine {raw : List String} (accepted : config.validate = .ok ())
    (manageable : Manageable config raw data) :
    Yields (refine config raw data) fun r => Rated config data r.winner :=
  yields_refine_of_affordable accepted manageable.countable manageable.affordable

end Refinement

/-- The node is a finite literal, a feature, or an operator. -/
def Node.IsNumeric {β : Type} : Node Float β → Prop
  | const v => v.isFinite = true
  | var _ | unary .. | binary .. | nary .. => True
  | param _ | symbol _ | relation .. | bounds .. | call .. => False

/-- A model that serves for its training features: nothing in its formula lacks a number, and it
predicts a finite value for every row. -/
structure Model.Usable (m : Model) (x : Matrix Float) : Prop where
  numeric : ∀ n ∈ m.expr.reachable, n.IsNumeric
  predicts : ∃ values, m.predict x = .ok values ∧ values.length = x.rows ∧
    ∀ v ∈ values, v.isFinite = true

namespace Expr

theorem Determined.isNumeric_of_evaluate {e : Expr Float} (determined : e.Determined)
    {options : CompileOptions Float} {x : Matrix Float} (rows_pos : 0 < x.rows)
    {values : List Float} (evaluated : e.evaluate options x = .ok values) :
    ∀ n ∈ e.reachable, n.IsNumeric := by
  intro n member
  have closed := determined.isClosed_of_evaluate rows_pos evaluated n member
  have reaches := determined.valid.mem_reachable_iff.mp member
  have regular := determined.regular n reaches
  cases n with
  | const v => exact (Bool.not_eq_false' v.isFinite).mp regular
  | symbol s => exact determined.symbol_free s reaches
  | relation op a b => cases regular
  | bounds a b => cases regular
  | param i => exact closed
  | call name args => exact closed
  | _ => trivial

theorem reachable_constant (v : Float) : (constant v).reachable = [.const v] := by
  simp [reachable, preorder, preorderAt, constant, Node.children]

end Expr

namespace Refiner

theorem exists_impute {r : Refiner} (column_mean : r.imputer = .columnMean) (x : Matrix Float) :
    ∃ imputation features, r.impute x = .ok (imputation, features) := by
  rw [impute, column_mean]
  split
  · have filled : ∃ features, Matrix.fill x.columnMeans x = .ok features := by
      rw [Matrix.fill, if_neg (by simp [Matrix.columnMeans, Matrix.columnList])]
      exact ⟨_, rfl⟩
    obtain ⟨features, filled⟩ := filled
    exact ⟨_, _, bind_eq_ok_iff.mpr ⟨_, bind_eq_ok_iff.mpr ⟨features, filled, rfl⟩, rfl⟩⟩
  · exact ⟨_, _, rfl⟩

theorem exists_dataset {x features : Matrix Float} {y : List Float} {data : Dataset}
    (built : Dataset.of? x y = .ok data) (rows_eq : features.rows = x.rows) :
    ∃ filled, Dataset.of? features y = .ok filled := by
  obtain ⟨rfl, rfl⟩ := Dataset.of?_eq_ok built
  rw [Dataset.of?, dif_pos (rows_eq.trans data.rows_eq), dif_neg data.targets_ne_nil,
    dif_pos data.targets_finite]
  exact ⟨_, rfl⟩

/-- What stops a refinement does not depend on the features. -/
theorem manageable_of_targets {config : Config} {raw : List String} {data filled : Dataset}
    (manageable : Refinement.Manageable config raw data)
    (targets_eq : filled.targets = data.targets) : Refinement.Manageable config raw filled := by
  have tuning_eq : Refinement.isTuning config filled = Refinement.isTuning config data := by
    rw [Refinement.isTuning, Refinement.isTuning, Dataset.rowCount, Dataset.rowCount, targets_eq]
  exact ⟨manageable.countable, fun tuning => manageable.drawable (tuning_eq ▸ tuning),
    fun tuning => manageable.room (tuning_eq ▸ tuning)⟩

theorem usable_of_evaluate {m : Model} {x features : Matrix Float} {config : Config}
    (completed : m.complete x = .ok features) (rows_eq : features.rows = x.rows)
    (placeholder_eq : m.divisionPlaceholder = config.divisionPlaceholder)
    (numeric : ∀ n ∈ m.expr.reachable, n.IsNumeric) {values : List Float}
    (evaluated : m.expr.evaluate (config.compileOptions features.cols) features = .ok values)
    (finite : ∀ v ∈ values, v.isFinite = true) : m.Usable x := by
  have evaluated_in_time := Expr.evaluate_of_unexpired evaluated (show 5000 ≠ 0 by decide)
  refine ⟨numeric, values, ?_, ?_, finite⟩
  · rw [Model.predict, completed]
    change (Expr.evaluate _ _ _).mapError _ = _
    rw [Model.compileOptions, placeholder_eq]
    exact congrArg (fun result => Except.mapError Expr.asNumericFault result) evaluated_in_time
  · rw [Expr.length_of_evaluate evaluated, rows_eq]

/-- A fit that nothing stops gives a model, and the model is usable unless it is a mean of targets
that is not finite. -/
theorem fit_usable_iff (config : Config) (r : Refiner) (raw : List String) (x : Matrix Float)
    (y : List Float) (data : Dataset) (accepted : Refiner.ofConfig config = .ok r)
    (built : Dataset.of? x y = .ok data) (manageable : Refinement.Manageable config raw data) :
    ∃ m, r.fit raw x y = .ok m ∧
      (m.Usable x ↔ (laneMean y).isFinite = true ∨ m.status ≠ .degraded) := by
  obtain ⟨_, validated, accepted⟩ := bind_eq_ok_iff.mp accepted
  obtain rfl : ⟨config, .columnMean⟩ = r := Except.ok.inj accepted
  have column_mean : (⟨config, .columnMean⟩ : Refiner).imputer = .columnMean := rfl
  obtain ⟨imputation, features, imputed⟩ := exists_impute column_mean x
  have rows_eq := rows_of_impute column_mean imputed
  obtain ⟨filled, built_filled⟩ := exists_dataset built rows_eq
  obtain ⟨features_eq, targets_eq⟩ := Dataset.of?_eq_ok built_filled
  have manageable_filled := manageable_of_targets manageable
    (targets_eq.trans (Dataset.of?_eq_ok built).2.symm)
  obtain ⟨refinement, refined, rated⟩ := Refinement.yields_refine validated manageable_filled
  let m := Model.ofCandidate refinement.winner refinement.summary config.divisionPlaceholder
    imputation
  have completed : m.complete x = .ok features := complete_of_impute column_mean imputed rfl
  refine ⟨m, ?_, ?_⟩
  · exact bind_eq_ok_iff.mpr ⟨_, imputed, bind_eq_ok_iff.mpr ⟨filled, built_filled,
      bind_eq_ok_iff.mpr ⟨refinement, refined, rfl⟩⟩⟩
  have rows_pos : 0 < features.rows := features_eq ▸ filled.rows_pos
  rcases rated.progress with sound | ⟨degraded, mean⟩
  · obtain ⟨values, evaluated, finite⟩ := sound.finite
    rw [Refinement.evaluation, Dataset.featureCount, features_eq] at evaluated
    refine iff_of_true ?_ (.inr sound.status_ne)
    exact usable_of_evaluate completed rows_eq rfl
      (sound.determined.isNumeric_of_evaluate rows_pos evaluated) evaluated finite
  · have mean_eq : filled.targetMean = laneMean y := by rw [Dataset.targetMean, targets_eq]
    have formula_eq : m.expr = .constant (laneMean y) := mean.trans (congrArg _ mean_eq)
    constructor
    · intro usable
      have numeric := usable.numeric
      rw [formula_eq, Expr.reachable_constant] at numeric
      exact .inl (numeric _ (List.mem_singleton_self _))
    · rintro (finite | other)
      · refine usable_of_evaluate completed rows_eq rfl ?_
          (formula_eq ▸ Expr.evaluate_constant finite)
          fun v member => List.eq_of_mem_replicate member ▸ finite
        rw [formula_eq, Expr.reachable_constant]
        exact List.forall_mem_singleton.mpr finite
      · exact absurd degraded other

/-- With a scale whose double is finite and a history that can be addressed, only a coefficient that
cannot be counted stops a refinement. -/
theorem manageable_of_settings {config : Config} {raw : List String} {data : Dataset}
    (countable : ∀ text ∈ raw, ∀ e, Formula.parse text = .ok e →
      ¬e.Reaches (.param Program.uncountable))
    (drawable : Random.isDrawable (-config.perturbationScale) config.perturbationScale = true)
    (room : config.historySize.toNat ≤ Lbfgs.historyLimit) :
    Refinement.Manageable config raw data where
  countable := countable
  drawable _ _ _ s _ := Expr.canLift_of_isDrawable drawable s
  room _ := decide_eq_true room

theorem gappyColumn_usable :
    ∃ r data m, Refiner.ofConfig Refinement.oneStep = .ok r ∧
      Dataset.of? gappyColumn risingTargets = .ok data ∧
      Refinement.Manageable Refinement.oneStep ["x_0 +", "1.5*x_0"] data ∧
      r.fit ["x_0 +", "1.5*x_0"] gappyColumn risingTargets = .ok m ∧ m.Usable gappyColumn := by
  have accepted : Refiner.ofConfig Refinement.oneStep = .ok ⟨Refinement.oneStep, .columnMean⟩ :=
    bind_eq_ok_iff.mpr ⟨(), by decide +kernel, rfl⟩
  have countable : ∀ text ∈ ["x_0 +", "1.5*x_0"], (Formula.parse text).toOption.all (fun e =>
      e.nodes.toList.all fun n => n ≠ .param Program.uncountable) = true := by decide +kernel
  have rows_eq : (Dataset.of? gappyColumn risingTargets).toOption.map Dataset.rowCount =
      some 3 := by decide +kernel
  obtain ⟨data, built, -⟩ := exists_of_map_toOption rows_eq
  have manageable : Refinement.Manageable Refinement.oneStep ["x_0 +", "1.5*x_0"] data := by
    refine manageable_of_settings ?_ (by decide +kernel) (by decide +kernel)
    intro text member e parsed reaches
    have checked := countable text member
    rw [parsed] at checked
    exact of_decide_eq_true (List.all_eq_true.mp checked _ reaches.mem) rfl
  obtain ⟨m, fitted, usable_iff⟩ := fit_usable_iff _ _ _ _ _ data accepted built manageable
  exact ⟨_, data, m, accepted, built, manageable, fitted,
    usable_iff.mpr (.inl (by decide +kernel))⟩

/-- Two samples. -/
def twoRows : Matrix Float := Matrix.ofColumn [1, 2]

/-- The sum of huge targets overflows, so the model that stands in for an empty pool predicts
nothing; a coefficient that cannot be counted stops the fit, and so do offsets that cannot be
drawn. -/
theorem hugeTargets_not_usable :
    (∃ r m, Refiner.ofConfig { randomState := some 3 } = .ok r ∧
      (Dataset.of? twoRows [1e308, 1e308]).isOk = true ∧
      r.fit [] twoRows [1e308, 1e308] = .ok m ∧ m.expr = .constant Scalar.posInf ∧
      (m.predict twoRows).isOk = false ∧ ¬m.Usable twoRows) ∧
    (∃ r, Refiner.ofConfig { randomState := some 3 } = .ok r ∧
      (r.fit ["C_18446744073709551615"] twoRows [1, 2]).isOk = false) ∧
    ∃ r, Refiner.ofConfig { randomState := some 3, finetune := true, perturbationScale := 1e308 } =
        .ok r ∧ (r.fit ["2*x_0 + 2"] twoRows [1, 2]).isOk = false := by
  have accepted : Refiner.ofConfig { randomState := some 3 } =
      .ok ⟨{ randomState := some 3 }, .columnMean⟩ :=
    bind_eq_ok_iff.mpr ⟨(), by decide +kernel, rfl⟩
  have accepted' : Refiner.ofConfig
      { randomState := some 3, finetune := true, perturbationScale := 1e308 } =
      .ok ⟨{ randomState := some 3, finetune := true, perturbationScale := 1e308 }, .columnMean⟩ :=
    bind_eq_ok_iff.mpr ⟨(), by decide +kernel, rfl⟩
  refine ⟨?_, ⟨_, accepted, by decide +kernel⟩, ⟨_, accepted', by decide +kernel⟩⟩
  have fitted_some : ((fit ⟨{ randomState := some 3 }, .columnMean⟩ [] twoRows
      [1e308, 1e308]).toOption.map fun m => (m.expr, (m.predict twoRows).isOk)) =
        some (.constant Scalar.posInf, false) := by decide +kernel
  obtain ⟨m, fitted, served⟩ := exists_of_map_toOption fitted_some
  obtain ⟨formula_eq, predicted⟩ := Prod.mk.inj served
  refine ⟨_, m, accepted, by decide +kernel, fitted, formula_eq, predicted, fun usable => ?_⟩
  obtain ⟨values, values_eq, -⟩ := usable.predicts
  rw [values_eq] at predicted
  cases predicted

end Refiner

end FormulaFit
