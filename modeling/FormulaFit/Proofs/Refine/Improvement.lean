import FormulaFit.Proofs.Refine.Scoring
import FormulaFit.Proofs.Refine.Usability
import FormulaFit.Proofs.Scalar.Order

/-!
# Optimization does not make candidates worse

Refining a pool with and without the optimization of constants keeps the same candidates, and the
optimization accepts only what has a better error.  It compares with the error of the formula as it
was, though, and without it a formula whose predictions are infinite or undefined is replaced by the
mean of the targets: so a candidate can become worse than the mean, and this is the only way.
-/

namespace FormulaFit

namespace Finetune

variable {σ : Type} [WordSource σ] {settings : Settings} {data : Dataset} {e : Expr Float}

theorem trainingError_eq {options : CompileOptions Float} (sanitized : e.Sanitized)
    (closed : e.IsClosed options.featureCount) (unexpired : options.timeoutMs ≠ 0)
    (wide : options.featureCount ≤ data.features.cols) :
    ∃ values, e.evaluate options data.features = .ok values ∧
      trainingError options data e = .ok (data.error values) := by
  obtain ⟨p, values, compiled, evaluated⟩ := sanitized.exists_program closed unexpired wide
  refine ⟨values, Expr.evaluate_eq_of_compile compiled wide data.rows_pos evaluated, ?_⟩
  rw [trainingError, compiled]
  simp only [bind, Except.bind, evaluated, Error.absorb]
  rfl

theorem improves_of_tuned {maxSteps : Nat} {source : σ} {outcome : Outcome}
    (sanitized : e.Sanitized) (wide : settings.compile.featureCount ≤ data.features.cols)
    (finished : finetune settings data maxSteps e source = .ok outcome)
    (tuned : outcome.status = .tuned) :
    ∃ before after, e.evaluate settings.compile data.features = .ok before ∧
      outcome.expr.evaluate settings.compile data.features = .ok after ∧
      isImprovement (data.error before) (data.error after) = true := by
  obtain ⟨closed, -⟩ := isClosed_of_tuned sanitized wide finished tuned
  rcases steps_eq_zero_or_exists_descend finished with
    ⟨-, untuned, -⟩ | ⟨-, program, initial, d, compiled, -, concluded⟩
  · exact absurd tuned untuned
  · have unexpired := (Program.compile?_eq_ok_iff.mp (Expr.compile_eq_ok_iff.mp compiled)).2.1
    obtain ⟨-, -, v, v', trained, trained', improvement⟩ := tuned_of_conclude concluded tuned
    obtain ⟨before, evaluated, trained_eq⟩ := trainingError_eq sanitized closed unexpired wide
    obtain rfl := Except.ok.inj (trained.symm.trans trained_eq)
    obtain ⟨after, evaluated', rfl, -⟩ := exists_evaluate_of_trainingError trained'
      (isFinite_of_isImprovement improvement) wide
    exact ⟨before, after, evaluated, evaluated', improvement⟩

end Finetune

namespace Refinement

variable {config : Config} {data : Dataset}

/-- An error is at most another, where one that is not finite counts as the worst. -/
def AtMost (after before : Float) : Prop :=
  before.isFinite = true → after.isFinite = true ∧ after ≤ before

/-- One candidate is given up for the mean of the targets, the other has optimized constants and a
finite error. -/
structure Revived (data : Dataset) (before after : Candidate) : Prop where
  degraded : before.status = .degraded
  error_eq : before.error = some (meanError data)
  finetuned : after.status = .finetuned
  finite : ∃ e, after.error = some e ∧ e.isFinite = true

/-- A candidate stands for the same text as another, and its error is at most that of the other
unless it has optimized constants and the other is given up. -/
structure NotWorse (data : Dataset) (before after : Candidate) : Prop where
  source_eq : after.source = before.source
  error_le : (∃ e e', before.error = some e ∧ after.error = some e' ∧ AtMost e' e) ∨
    Revived data before after

theorem atMost_refl (e : Float) : AtMost e e := fun finite =>
  ⟨finite, Double.le_refl_of_finite finite⟩

theorem atMost_of_isImprovement {before after : Float}
    (improvement : Finetune.isImprovement before after = true) : AtMost after before := by
  intro finite
  rw [Finetune.isImprovement, Bool.and_eq_true, finite, Bool.true_and, Bool.not_eq_true',
    decide_eq_false_iff_not] at improvement
  exact ⟨improvement.1, Double.le_of_not_lt improvement.1 finite improvement.2⟩

theorem error_rate (c : Candidate) (values : List Float) :
    (rate config data c values).error =
      some (if values.all Float.isFinite then data.error values else meanError data) := by
  rw [rate]
  split <;> rfl

theorem notWorse_rate {c c' : Candidate} (source_eq : c'.source = c.source) (values : List Float) :
    NotWorse data (rate config data c values) (rate config data c' values) where
  source_eq := by rw [source_rate, source_rate, source_eq]
  error_le := .inl ⟨_, _, error_rate c values, error_rate c' values, atMost_refl _⟩

/-- Scoring makes the same of a formula that is as it was read, however often its optimization was
attempted. -/
theorem notWorse_of_untouched {w w' : Working} (untouched : Untouched config data w)
    (untouched' : Untouched config data w') (source_eq : w'.candidate.source = w.candidate.source)
    (sanitized_eq : w'.sanitized = w.sanitized) {result result' : Option Candidate}
    (scored : score config data w = .ok result) (scored' : score config data w' = .ok result') :
    Option.Rel (NotWorse data) result result' := by
  have expr_eq : w'.candidate.expr = w.candidate.expr := by
    rw [untouched'.expr_eq, sanitized_eq, untouched.expr_eq]
  cases evaluated : evaluation config data w.candidate.expr with
  | ok values =>
      rw [score_of_evaluation evaluated] at scored
      rw [← expr_eq] at evaluated
      rw [score_of_evaluation evaluated] at scored'
      cases scored
      cases scored'
      exact .some (notWorse_rate source_eq values)
  | error e =>
      obtain ⟨c, predicted⟩ := untouched.exists_predictions evaluated
      obtain ⟨c', predicted'⟩ := untouched'.exists_predictions (expr_eq ▸ evaluated)
      rw [score, predicted] at scored
      rw [score, predicted'] at scored'
      simp only at scored scored'
      split at scored
      · rename_i recoverable
        rw [if_pos recoverable] at scored'
        cases scored
        cases scored'
        exact .none
      · cases scored

theorem improves_of_tune {seed budget : UInt64} {w after : Working} (fresh : Fresh w)
    (tuned : tune config data seed budget w = .ok after)
    (finetuned : after.candidate.status = .finetuned) :
    ∃ values values', evaluation config data w.candidate.expr = .ok values ∧
      evaluation config data after.candidate.expr = .ok values' ∧
      Finetune.isImprovement (data.error values) (data.error values') = true := by
  have untouched : Untouched config data w := fresh.untouched
  obtain ⟨outcome, finished, after_eq⟩ := bind_eq_ok_iff.mp tuned
  cases after_eq
  by_cases is_tuned : outcome.status = .tuned
  · simp only [is_tuned, if_true]
    rw [untouched.expr_eq]
    exact Finetune.improves_of_tuned fresh.sanitized (Nat.le_refl _) finished is_tuned
  · simp only [is_tuned, if_false, Candidate.withAttempt, untouched.status_eq] at finetuned
    cases finetuned

/-- The optimization of one candidate does not make it worse, unless it has invalid predictions
without it. -/
theorem notWorse_of_tune {seed budget : UInt64} {w after : Working} (fresh : Fresh w)
    (tuned : tune config data seed budget w = .ok after) {result result' : Option Candidate}
    (scored : score config data w = .ok result) (scored' : score config data after = .ok result') :
    Option.Rel (NotWorse data) result result' := by
  have advances := advances_of_tune fresh tuned
  rcases advances.ready.progress with untouched | is_tuned
  · exact notWorse_of_untouched fresh.untouched untouched advances.source_eq advances.sanitized_eq
      scored scored'
  · obtain ⟨values, values', evaluated, evaluated', improvement⟩ :=
      improves_of_tune fresh tuned is_tuned.status_eq
    have error_finite := Finetune.isFinite_of_isImprovement improvement
    have finite' := List.all_eq_true.mpr (Dataset.isFinite_of_error error_finite).2
    rw [score_of_evaluation evaluated] at scored
    rw [score_of_evaluation evaluated'] at scored'
    cases scored
    cases scored'
    refine .some ⟨by rw [source_rate, source_rate, advances.source_eq], ?_⟩
    cases finite : values.all Float.isFinite with
    | true =>
        refine .inl ⟨_, _, error_rate _ _, error_rate _ _, ?_⟩
        rw [if_pos finite, if_pos finite']
        exact atMost_of_isImprovement improvement
    | false =>
        refine .inr ⟨?_, ?_, ?_, _, error_rate _ _, ?_⟩
        · rw [rate, finite]
          rfl
        · rw [error_rate, finite]
          rfl
        · rw [rate, if_pos finite']
          exact is_tuned.status_eq
        · rwa [if_pos finite']

theorem notWorse_of_forall₂ {pool staged : List Working}
    {results results' : List (Option Candidate)} (fresh : ∀ w ∈ pool, Fresh w)
    (advanced : List.Forall₂ (Staged config data) pool staged)
    (scored : List.Forall₂ (fun w result => score config data w = .ok result) pool results)
    (scored' : List.Forall₂ (fun w result => score config data w = .ok result) staged results') :
    List.Forall₂ (NotWorse data) (results.filterMap id) (results'.filterMap id) := by
  induction advanced generalizing results results' with
  | nil =>
      cases scored
      cases scored'
      exact .nil
  | @cons w after pool staged staged_w _ ih =>
      obtain ⟨fresh_w, fresh_pool⟩ := List.forall_mem_cons.mp fresh
      cases scored with
      | @cons _ result _ results head tail =>
      cases scored' with
      | @cons _ result' _ results' head' tail' =>
      have later := ih fresh_pool tail tail'
      have related : Option.Rel (NotWorse data) result result' := by
        rw [Staged] at staged_w
        split at staged_w
        · obtain ⟨budget, tuned⟩ := staged_w
          exact notWorse_of_tune fresh_w tuned head head'
        · subst staged_w
          exact notWorse_of_untouched fresh_w.untouched fresh_w.untouched rfl rfl head head'
      cases related with
      | none => exact later
      | some not_worse => exact .cons not_worse later

/-- Refining with the optimization of constants keeps the candidates of refining without it, and
none has a greater error, unless it is given up without the optimization.  Neither stops if nothing
stops the optimization. -/
theorem finetune_notWorse (config : Config) (raw : List String) (data : Dataset) :
    (∀ r r', refine { config with finetune := false } raw data = .ok r →
        refine { config with finetune := true } raw data = .ok r' →
        List.Forall₂ (NotWorse data) r.candidates r'.candidates) ∧
      (config.validate = .ok () → Manageable { config with finetune := true } raw data →
        (∃ r, refine { config with finetune := false } raw data = .ok r) ∧
          ∃ r', refine { config with finetune := true } raw data = .ok r') := by
  let untuned : Config := { config with finetune := false }
  let tuned : Config := { config with finetune := true }
  constructor
  · intro r r' refined refined'
    change refine untuned raw data = .ok r at refined
    change refine tuned raw data = .ok r' at refined'
    obtain ⟨pool, results, staged, scored, candidates_eq⟩ := exists_scores_of_refine refined
    obtain ⟨pool', results', staged', scored', candidates_eq'⟩ := exists_scores_of_refine refined'
    -- Without the optimization, the candidates to be scored are the repaired formulas.
    have pool_eq : pool = repaired tuned 0 raw := by
      have unstaged : List.Forall₂ Eq (repaired untuned 0 raw) pool :=
        staged.imp fun w after staged_w => (show after = w from staged_w).symm
      have policy_eq : untuned.sanitizePolicy = tuned.sanitizePolicy := rfl
      rw [List.forall₂_eq_eq_eq] at unstaged
      rw [← unstaged]
      exact repaired_congr policy_eq 0 raw
    rw [pool_eq] at scored
    have not_worse := notWorse_of_forall₂ (fun w member => fresh_of_mem_repaired member) staged'
      scored scored'
    rw [candidates_eq, candidates_eq', gather, gather]
    generalize results.filterMap id = scored, results'.filterMap id = scored' at not_worse
    cases not_worse with
    | nil => exact .cons ⟨rfl, .inl ⟨_, _, rfl, rfl, atMost_refl _⟩⟩ .nil
    | cons head tail => exact .cons head tail
  · intro accepted manageable
    have idle : isTuning untuned data ≠ true := Bool.false_ne_true
    have unmanaged : Manageable untuned raw data :=
      ⟨manageable.countable, fun tuning => absurd tuning idle, fun tuning => absurd tuning idle⟩
    have untuned_accepted : untuned.validate = .ok () := accepted
    have tuned_accepted : tuned.validate = .ok () := accepted
    obtain ⟨r, refined, -⟩ := yields_refine untuned_accepted unmanaged
    obtain ⟨r', refined', -⟩ := yields_refine tuned_accepted manageable
    exact ⟨⟨r, refined⟩, r', refined'⟩

/-- Optimizing the slope of a line, in a pool with a text that is not a formula. -/
theorem slopedLine_notWorse :
    oneStep.validate = .ok () ∧
      Manageable { oneStep with finetune := true } ["x_0 +", "1.5*x_0"] lineSamples ∧
      ∃ r r', refine { oneStep with finetune := false } ["x_0 +", "1.5*x_0"] lineSamples = .ok r ∧
        refine { oneStep with finetune := true } ["x_0 +", "1.5*x_0"] lineSamples = .ok r' ∧
        List.Forall₂ (NotWorse lineSamples) r.candidates r'.candidates := by
  obtain ⟨not_worse, neither_stops⟩ :=
    finetune_notWorse oneStep ["x_0 +", "1.5*x_0"] lineSamples
  have accepted : oneStep.validate = .ok () := by decide +kernel
  have manageable : Manageable { oneStep with finetune := true } ["x_0 +", "1.5*x_0"]
      lineSamples := by
    refine Refiner.manageable_of_settings ?_ (by decide +kernel) (by decide +kernel)
    have checked : ∀ text ∈ ["x_0 +", "1.5*x_0"], (Formula.parse text).toOption.all (fun e =>
        e.nodes.toList.all fun n => n ≠ .param Program.uncountable) = true := by decide +kernel
    intro text member e parsed reaches
    have listed := checked text member
    rw [parsed] at listed
    exact of_decide_eq_true (List.all_eq_true.mp listed _ reaches.mem) rfl
  obtain ⟨⟨r, refined⟩, r', refined'⟩ := neither_stops accepted manageable
  exact ⟨accepted, manageable, r, r', refined, refined', not_worse r r' refined refined'⟩

/-- Samples of a constant, one of them just outside the domain of `sqrt(x_0 - 1)`. -/
def constantSamples : Dataset :=
  ⟨Matrix.ofColumn [0.9999999, 2], [3, 3], by decide, by simp, by decide⟩

/-- Without the optimization, a root that is undefined at one sample is given up for the mean, which
is exact; an offset that moves the root into its domain gets it accepted with a greater error. -/
theorem shiftedRoot_worse :
    oneStep.validate = .ok () ∧
      ∃ r r', refine { oneStep with finetune := false } ["sqrt(x_0 - 1.0) + 1.0"] constantSamples =
          .ok r ∧
        refine { oneStep with finetune := true } ["sqrt(x_0 - 1.0) + 1.0"] constantSamples =
          .ok r' ∧
        ∃ c ∈ r.candidates, ∃ c' ∈ r'.candidates, c'.source = c.source ∧ c.error = some 0 ∧
          ∃ e, c'.error = some e ∧ 0 < e ∧ ¬AtMost e 0 := by
  have given_up : (refine { oneStep with finetune := false } ["sqrt(x_0 - 1.0) + 1.0"]
      constantSamples).toOption.map (fun r => r.candidates.map fun c => (c.source, c.error)) =
        some [(0, some 0)] := by decide +kernel
  have revived : (refine { oneStep with finetune := true } ["sqrt(x_0 - 1.0) + 1.0"]
      constantSamples).toOption.map (fun r => r.candidates.map fun c => (c.source,
        c.error.map fun e => decide (0 < e ∧ ¬(e.isFinite ∧ e ≤ 0)))) = some [(0, some true)] := by
    decide +kernel
  obtain ⟨r, refined, scored⟩ := exists_of_map_toOption given_up
  obtain ⟨r', refined', scored'⟩ := exists_of_map_toOption revived
  obtain ⟨c, candidates_eq, scores⟩ := List.map_eq_singleton_iff.mp scored
  obtain ⟨c', candidates_eq', scores'⟩ := List.map_eq_singleton_iff.mp scored'
  obtain ⟨source_eq, error_eq⟩ := Prod.mk.inj scores
  obtain ⟨source_eq', error_eq'⟩ := Prod.mk.inj scores'
  obtain ⟨e, e_eq, worse⟩ := Option.map_eq_some_iff.mp error_eq'
  obtain ⟨positive, beyond⟩ := of_decide_eq_true worse
  refine ⟨by decide +kernel, r, r', refined, refined', c, by simp [candidates_eq], c',
    by simp [candidates_eq'], source_eq'.trans source_eq.symm, error_eq, e, e_eq, positive, ?_⟩
  exact fun at_most => beyond (at_most (by decide +kernel))

end Refinement
end FormulaFit
