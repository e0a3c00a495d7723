import FormulaFit.Proofs.Refine.Accounting

/-!
# Scoring, candidate by candidate

What scoring makes of a candidate depends on the candidate and the data alone: it is kept with its
scores, replaced by the mean of the targets, or dropped.  The scored candidates of a pool are those
that are not dropped, so statements about a pool come down to statements about one candidate.
-/

namespace FormulaFit
namespace Refinement

variable {config : Config} {data : Dataset}

/-- A candidate with its scores for given predictions.  Predictions that are infinite or undefined
are replaced by the mean of the targets. -/
def rate (config : Config) (data : Dataset) (c : Candidate) (values : List Float) : Candidate :=
  if values.all Float.isFinite then
    c.withScores (data.error values) (c.expr.complexity config.complexityMetric)
  else
    let c := c.degrade data.targetMean
    c.withScores (meanError data) (c.expr.complexity config.complexityMetric)

@[simp]
theorem source_rate (c : Candidate) (values : List Float) :
    (rate config data c values).source = c.source := by
  rw [rate]
  split <;> rfl

/-- What scoring makes of one candidate; nothing if it is dropped. -/
def score (config : Config) (data : Dataset) (w : Working) : Except Error (Option Candidate) :=
  match predictions config data w with
  | (c, .ok values) => .ok (some (rate config data c values))
  | (_, .error e) => if e.isRecoverable then .ok none else .error e

theorem exists_scoreAll_cons (w : Working) (pool : List Working) (before : Summary) :
    ∃ between, scoreAll config data (w :: pool) before = do
      let result ← score config data w
      let (scored, after) ← scoreAll config data pool between
      return (result.toList ++ scored, after) := by
  rw [scoreAll, score]
  cases predictions config data w with
  | mk c predicted =>
  cases predicted with
  | ok values =>
      cases finite : values.all Float.isFinite with
      | true => exact ⟨_, by simp only [rate, finite, if_true]; rfl⟩
      | false => exact ⟨_, by simp only [rate, finite]; rfl⟩
  | error e =>
      cases recoverable : e.isRecoverable with
      | true => exact ⟨{ before with dropped := before.dropped + 1 }, by
          simp only [recoverable, if_true, bind, Except.bind, Option.toList_none, List.nil_append]
          cases scoreAll config data pool { before with dropped := before.dropped + 1 } <;> rfl⟩
      | false => exact ⟨before, by simp only [recoverable]; rfl⟩

/-- The scored candidates of a pool are those that scoring makes of its candidates one by one. -/
theorem exists_scoreAll_iff {pool : List Working} {before : Summary} {scored : List Candidate} :
    (∃ after, scoreAll config data pool before = .ok (scored, after)) ↔
      ∃ results, List.Forall₂ (fun w result => score config data w = .ok result) pool results ∧
        scored = results.filterMap id := by
  induction pool generalizing before scored with
  | nil =>
      constructor
      · rintro ⟨after, finished⟩
        cases finished
        exact ⟨[], .nil, rfl⟩
      · rintro ⟨results, each, rfl⟩
        cases each
        exact ⟨before, rfl⟩
  | cons w pool ih =>
      obtain ⟨between, scoreAll_eq⟩ := exists_scoreAll_cons w pool before
      rw [scoreAll_eq]
      constructor
      · rintro ⟨after, finished⟩
        obtain ⟨result, head, finished⟩ := bind_eq_ok_iff.mp finished
        obtain ⟨⟨later, after'⟩, rest, finished⟩ := bind_eq_ok_iff.mp finished
        cases finished
        obtain ⟨results, tail, rfl⟩ := ih.mp ⟨_, rest⟩
        refine ⟨result :: results, .cons head tail, ?_⟩
        cases result <;> rfl
      · rintro ⟨results, each, rfl⟩
        cases each with
        | @cons _ result _ results head tail =>
        obtain ⟨after, rest⟩ := ih.mpr ⟨results, tail, rfl⟩
        refine ⟨after, bind_eq_ok_iff.mpr ⟨result, head, bind_eq_ok_iff.mpr ⟨_, rest, ?_⟩⟩⟩
        cases result <;> rfl

theorem score_of_evaluation {w : Working} {values : List Float}
    (evaluated : evaluation config data w.candidate.expr = .ok values) :
    score config data w = .ok (some (rate config data w.candidate values)) := by
  rw [score, predictions_of_ok evaluated]

theorem repaired_congr {config' : Config}
    (policy_eq : config'.sanitizePolicy = config.sanitizePolicy) (position : Nat)
    (texts : List String) :
    repaired config' position texts = repaired config position texts := by
  have repair_eq (text : String) : repair config' text = repair config text := by
    rw [repair, repair, policy_eq]
  induction texts generalizing position with
  | nil => rfl
  | cons text texts ih => rw [repaired, repaired, repair_eq, ih]

/-- What the optimization stage makes of a candidate: the candidate as it is if constants are not
optimized, and otherwise what some number of steps makes of it. -/
def Staged (config : Config) (data : Dataset) (w after : Working) : Prop :=
  if isTuning config data then
    ∃ budget, tune config data (config.randomState.getD 0) budget w = .ok after
  else after = w

/-- The candidates of a refinement, given what becomes of its texts; the mean of the targets if
nothing is left of any. -/
def gather (config : Config) (data : Dataset) (raw : List String)
    (results : List (Option Candidate)) : List Candidate :=
  if (results.filterMap id).isEmpty then [fallback config data raw.length]
  else results.filterMap id

theorem exists_scores_of_refine {raw : List String} {r : Refinement}
    (refined : refine config raw data = .ok r) : ∃ pool results,
      List.Forall₂ (Staged config data) (repaired config 0 raw) pool ∧
      List.Forall₂ (fun w result => score config data w = .ok result) pool results ∧
      r.candidates = gather config data raw results := by
  obtain ⟨pool, summary, scored, summary', optimized, finished, candidates_eq, -, -⟩ :=
    exists_stages_of_refine refined
  obtain ⟨results, scored_all, rfl⟩ := exists_scoreAll_iff.mp ⟨_, finished⟩
  refine ⟨pool, results, ?_, scored_all, candidates_eq⟩
  rw [finetuneStage] at optimized
  cases tuning : isTuning config data with
  | true =>
      rw [if_pos tuning] at optimized
      obtain ⟨tuned, tuned_eq, optimized⟩ := bind_eq_ok_iff.mp optimized
      cases optimized
      exact (forall₂_tune_of_tuneAll tuned_eq).imp fun w after optimized => by
        rwa [Staged, if_pos tuning]
  | false =>
      rw [tuning] at optimized
      cases optimized
      exact List.forall₂_same.mpr fun w _ => by
        rw [Staged, tuning]
        rfl

end Refinement
end FormulaFit
