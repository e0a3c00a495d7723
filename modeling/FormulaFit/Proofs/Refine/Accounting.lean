import FormulaFit.Proofs.Refine.Stages

/-!
# The accounts of a refinement

The counts of a refinement are taken at three stages, and a later stage can still drop or degrade
what an earlier one counted.  Together with what each stage makes of a candidate they agree with the
candidates that come out: a candidate with optimized constants is neither dropped nor degraded, and
a dropped one has no steps.
-/

namespace FormulaFit
namespace Refinement

-- Sums start from the numeral zero, whatever else is imported.
attribute [local instance (high)] Zero.ofOfNat0

variable {config : Config} {data : Dataset}

/-- What scoring a pool adds to the counts. -/
structure Scores (config : Config) (data : Dataset) (pool : List Working) (before : Summary)
    (scored : List Candidate) (after : Summary) : Prop where
  /-- The scored candidates are those with predictions. -/
  sources_eq : scored.map Candidate.source =
    (pool.filter (evaluates config data)).map fun w => w.candidate.source
  /-- Every other one is dropped. -/
  dropped_eq : after.dropped + scored.length = before.dropped + pool.length
  /-- The degraded ones are counted. -/
  degraded_eq : after.degraded = before.degraded + scored.countP fun c => c.status = .degraded
  /-- No candidate with optimized constants is lost. -/
  finetuned_eq : (scored.countP fun c => c.status = .finetuned) =
    pool.countP fun w => w.candidate.status = .finetuned
  /-- No steps are lost. -/
  steps_eq : (scored.map Candidate.steps).sum = (pool.map fun w => w.candidate.steps).sum
  /-- The other counts stay. -/
  others_eq : after = { before with degraded := after.degraded, dropped := after.dropped }

theorem scores_of_scoreAll {pool : List Working} {before after : Summary} {scored : List Candidate}
    (ready : ∀ w ∈ pool, Ready config data w)
    (finished : scoreAll config data pool before = .ok (scored, after)) :
    Scores config data pool before scored after := by
  induction pool generalizing before scored with
  | nil =>
      cases finished
      exact ⟨rfl, rfl, rfl, rfl, rfl, rfl⟩
  | cons w pool ih =>
      obtain ⟨ready_w, ready_pool⟩ := List.forall_mem_cons.mp ready
      rcases ready_w.kept_or_dropped finished with
        ⟨evaluated, c, later, rfl, source_eq, steps_eq, finetuned_iff, rest⟩ |
          ⟨unevaluated, steps_eq, untuned, rest⟩
      · have scores := ih ready_pool rest
        refine ⟨?_, ?_, ?_, ?_, ?_, scores.others_eq⟩
        · rw [List.filter_cons_of_pos evaluated, List.map_cons, List.map_cons, source_eq,
            scores.sources_eq]
        · rw [List.length_cons, List.length_cons, ← Nat.add_assoc, scores.dropped_eq, Nat.add_assoc]
        · rw [scores.degraded_eq, List.countP_cons]
          simp only [decide_eq_true_eq]
          omega
        · rw [List.countP_cons, List.countP_cons, scores.finetuned_eq]
          simp only [decide_eq_true_eq, finetuned_iff]
        · rw [List.map_cons, List.map_cons, List.sum_cons, List.sum_cons, steps_eq, scores.steps_eq]
      · have scores := ih ready_pool rest
        have dropped_eq := scores.dropped_eq
        simp only at dropped_eq
        refine ⟨?_, ?_, scores.degraded_eq, ?_, ?_, scores.others_eq⟩
        · rw [List.filter_cons_of_neg (Bool.eq_false_iff.mp unevaluated), scores.sources_eq]
        · rw [List.length_cons]
          omega
        · rw [List.countP_cons, scores.finetuned_eq]
          simp [untuned]
        · rw [List.map_cons, List.sum_cons, steps_eq, Nat.zero_add, scores.steps_eq]

theorem sources_of_advances {pool results : List Working}
    (advances : List.Forall₂ (Advances config data) pool results) :
    (results.map fun w => w.candidate.source) = pool.map fun w => w.candidate.source := by
  induction advances with
  | nil => rfl
  | cons first _ ih => rw [List.map_cons, List.map_cons, first.source_eq, ih]

theorem ready_of_advances {pool results : List Working}
    (advances : List.Forall₂ (Advances config data) pool results) :
    ∀ w ∈ results, Ready config data w := by
  intro w member
  obtain ⟨_, -, advanced⟩ := exists_mem_of_forall₂ advances member
  exact advanced.ready

/-- With time to compile, the candidates with predictions are those whose repaired formula is
closed. -/
theorem exists_evaluates_iff {pool results : List Working}
    (advances : List.Forall₂ (Advances config data) pool results)
    (unexpired : config.compileTimeoutMs ≠ 0) (i : Nat) :
    (∃ w ∈ results, evaluates config data w = true ∧ w.candidate.source = i) ↔
      ∃ w ∈ pool, w.sanitized.IsClosed data.featureCount ∧ w.candidate.source = i := by
  induction advances with
  | nil => simp
  | cons first _ ih =>
      simp only [List.exists_mem_cons_iff, ih, first.ready.evaluates_iff unexpired, first.source_eq,
        first.sanitized_eq]

/-- The candidates that stand for texts of the pool. -/
def survivors (raw : List String) (r : Refinement) : List Candidate :=
  r.candidates.filter fun c => c.source < raw.length

/-- The counts of a refinement agree with its candidates. -/
structure Accounted (config : Config) (raw : List String) (data : Dataset) (r : Refinement) :
    Prop where
  /-- The candidates are in the order of their texts. -/
  increasing : (r.candidates.map Candidate.source).Pairwise (· < ·)
  /-- With time to compile, a text survives if and only if it is a formula that can be repaired,
  with no call, no coefficient and no feature beyond the columns left in it. -/
  survives_iff : config.compileTimeoutMs ≠ 0 → ∀ i text, raw[i]? = some text →
    ((∃ c ∈ r.candidates, c.source = i) ↔ ∃ e s, Formula.parse text = .ok e ∧
      e.sanitize config.sanitizePolicy = .ok s ∧ s.IsClosed data.featureCount)
  /-- The texts are counted. -/
  raw_eq : r.summary.raw = raw.length
  /-- The texts that are formulas are counted. -/
  parsed_eq : r.summary.parsed = raw.countP fun text => (Formula.parse text).isOk
  /-- The formulas that can be repaired are counted. -/
  sanitized_eq : r.summary.sanitized = raw.countP fun text => (repair config text).isOk
  /-- Every text is dropped or survives. -/
  dropped_eq : r.summary.dropped + (r.survivors raw).length = raw.length
  /-- The survivors that were degraded are counted. -/
  degraded_eq : r.summary.degraded = (r.survivors raw).countP fun c => c.status = .degraded
  /-- The survivors with optimized constants are counted. -/
  finetuned_eq : r.summary.finetuned = (r.survivors raw).countP fun c => c.status = .finetuned
  /-- All steps are spent on candidates that come out. -/
  steps_eq : r.summary.steps = (r.candidates.map Candidate.steps).sum
  /-- The winner is one of the candidates. -/
  winner_eq : r.candidates[r.selected]? = some r.winner
  /-- The winner's text is named if and only if some text survived. -/
  selected_iff : r.summary.selected = some r.winner.source ↔ r.survivors raw ≠ []
  /-- If none did, then the mean of the targets is the only candidate, and no text is named. -/
  fallback_eq : r.survivors raw = [] →
    r.candidates = [fallback config data raw.length] ∧ r.summary.selected = none

theorem exists_stages_of_refine {raw : List String} {r : Refinement}
    (refined : refine config raw data = .ok r) : ∃ pool summary scored summary',
      finetuneStage config data (config.randomState.getD 0) (repaired config 0 raw) {
        raw := raw.length
        parsed := raw.countP fun text => (Formula.parse text).isOk
        sanitized := raw.countP fun text => (repair config text).isOk
        dropped := raw.countP fun text => !(repair config text).isOk } = .ok (pool, summary) ∧
      scoreAll config data pool summary = .ok (scored, summary') ∧
      r.candidates = (if scored.isEmpty then [fallback config data raw.length] else scored) ∧
      r.candidates[r.selected]? = some r.winner ∧
      r.summary = { summary' with
        selected := if r.winner.source < raw.length then some r.winner.source else none } := by
  obtain ⟨_, -, refined⟩ := bind_eq_ok_iff.mp refined
  rw [sanitizeAll_eq] at refined
  obtain ⟨⟨pool, summary⟩, optimized, refined⟩ := bind_eq_ok_iff.mp refined
  obtain ⟨⟨scored, summary'⟩, finished, refined⟩ := bind_eq_ok_iff.mp refined
  obtain ⟨selected, -, refined⟩ := bind_eq_ok_iff.mp refined
  simp only at refined
  split at refined
  · rename_i winner chosen
    cases refined
    exact ⟨pool, summary, scored, summary', by simpa using optimized, finished, rfl, chosen, rfl⟩
  · cases refined

theorem Scores.sources_sublist {raw : List String} {pool : List Working} {before after : Summary}
    {scored : List Candidate} (scores : Scores config data pool before scored after)
    (advances : List.Forall₂ (Advances config data) (repaired config 0 raw) pool) :
    (scored.map Candidate.source).Sublist (List.range' 0 raw.length) := by
  rw [scores.sources_eq]
  refine (List.filter_sublist.map _).trans ?_
  rw [sources_of_advances advances]
  exact sources_repaired config 0 raw

/-- With time to compile, the scored candidates stand for the texts that are formulas and closed
when repaired. -/
theorem Scores.mem_sources_iff {raw : List String} {pool : List Working} {before after : Summary}
    {scored : List Candidate} (scores : Scores config data pool before scored after)
    (advances : List.Forall₂ (Advances config data) (repaired config 0 raw) pool)
    (unexpired : config.compileTimeoutMs ≠ 0) {i : Nat} {text : String}
    (found : raw[i]? = some text) :
    i ∈ scored.map Candidate.source ↔ ∃ e s, Formula.parse text = .ok e ∧
      e.sanitize config.sanitizePolicy = .ok s ∧ s.IsClosed data.featureCount := by
  rw [scores.sources_eq, List.mem_map]
  simp only [List.mem_filter, and_assoc]
  rw [exists_evaluates_iff advances unexpired]
  constructor
  · rintro ⟨w, member, closed, rfl⟩
    obtain ⟨j, text', s, found', fixed, rfl⟩ := mem_repaired_iff.mp member
    simp only [Candidate.ofExpr, Nat.zero_add] at found
    obtain rfl : text' = text := Option.some.inj (found'.symm.trans found)
    obtain ⟨e, is_read, sanitized⟩ := bind_eq_ok_iff.mp fixed
    exact ⟨e, s, read_eq_ok_iff.mp is_read, sanitized, closed⟩
  · rintro ⟨e, s, parsed, sanitized, closed⟩
    have fixed : repair config text = .ok s := by
      rw [repair, read, parsed]
      exact sanitized
    exact ⟨_, mem_repaired_iff.mpr ⟨i, text, s, found, fixed, rfl⟩, closed, Nat.zero_add i⟩

section Pool

variable {raw : List String} {r : Refinement} {scored : List Candidate}

theorem unscored_or_scored
    (candidates_eq : r.candidates =
      if scored.isEmpty then [fallback config data raw.length] else scored) :
    (scored = [] ∧ r.candidates = [fallback config data raw.length]) ∨
      scored ≠ [] ∧ r.candidates = scored := by
  cases scored with
  | nil => exact .inl ⟨rfl, candidates_eq⟩
  | cons c scored => exact .inr ⟨List.cons_ne_nil c scored, candidates_eq⟩

theorem source_fallback (source : Nat) : (fallback config data source).source = source := rfl

/-- The made-up candidate stands for no text, so the survivors are the scored candidates. -/
theorem survivors_eq_scored
    (candidates_eq : r.candidates =
      if scored.isEmpty then [fallback config data raw.length] else scored)
    (source_lt : ∀ c ∈ scored, c.source < raw.length) : r.survivors raw = scored := by
  rcases unscored_or_scored candidates_eq with ⟨empty, made_up⟩ | ⟨-, same⟩
  · simp [survivors, made_up, empty, source_fallback]
  · rw [survivors, same]
    exact List.filter_eq_self.mpr fun c member => decide_eq_true (source_lt c member)

theorem winner_lt_iff
    (candidates_eq : r.candidates =
      if scored.isEmpty then [fallback config data raw.length] else scored)
    (source_lt : ∀ c ∈ scored, c.source < raw.length) (winner_mem : r.winner ∈ r.candidates) :
    r.winner.source < raw.length ↔ scored ≠ [] := by
  rcases unscored_or_scored candidates_eq with ⟨empty, made_up⟩ | ⟨nonempty, same⟩
  · obtain winner_is : r.winner = _ := List.mem_singleton.mp (made_up ▸ winner_mem)
    simp [winner_is, source_fallback, empty]
  · exact iff_of_true (source_lt _ (same ▸ winner_mem)) nonempty

end Pool

/-- The counts of every refinement agree with its candidates, whether constants are optimized or not
and however steps are shared. -/
theorem accounted_of_refine (config : Config) (raw : List String) (data : Dataset) (r : Refinement)
    (refined : refine config raw data = .ok r) : Accounted config raw data r := by
  obtain ⟨pool, summary, scored, summary', optimized, finished, candidates_eq, winner_eq,
    summary_eq⟩ := exists_stages_of_refine refined
  obtain ⟨advances, counted⟩ := advances_of_finetuneStage (fun w => fresh_of_mem_repaired) rfl rfl
    optimized
  have scores := scores_of_scoreAll (ready_of_advances advances) finished
  have sublist := scores.sources_sublist advances
  have source_lt : ∀ c ∈ scored, c.source < raw.length := fun c member => by
    simpa using sublist.subset (List.mem_map_of_mem member)
  have winner_mem : r.winner ∈ r.candidates := List.mem_of_getElem? winner_eq
  have unscored_or_scored := unscored_or_scored candidates_eq
  have survivors_eq := survivors_eq_scored candidates_eq source_lt
  have winner_lt_iff := winner_lt_iff candidates_eq source_lt winner_mem
  have dropped_eq := scores.dropped_eq
  have length_eq := length_repaired config 0 raw
  have degraded_eq := scores.degraded_eq
  rw [counted] at dropped_eq degraded_eq
  rw [advances.length_eq] at length_eq
  have others_eq := scores.others_eq
  rw [counted] at others_eq
  exact {
    increasing := by
      rcases unscored_or_scored with ⟨-, made_up⟩ | ⟨-, same⟩
      · simp [made_up]
      · exact same ▸ List.Pairwise.sublist sublist (List.pairwise_lt_range' _)
    survives_iff := fun unexpired i text found => by
      rw [← scores.mem_sources_iff advances unexpired found, List.mem_map]
      rcases unscored_or_scored with ⟨empty, made_up⟩ | ⟨-, same⟩
      · have i_lt : i < raw.length := (List.getElem?_eq_some_iff.mp found).1
        simp [made_up, empty, source_fallback, Nat.ne_of_gt i_lt]
      · rw [same]
    raw_eq := by rw [summary_eq, others_eq]
    parsed_eq := by rw [summary_eq, others_eq]
    sanitized_eq := by rw [summary_eq, others_eq]
    dropped_eq := by
      rw [survivors_eq, summary_eq, dropped_eq, Nat.add_comm]
      exact length_eq
    degraded_eq := by rw [survivors_eq, summary_eq, degraded_eq, Nat.zero_add]
    finetuned_eq := by rw [survivors_eq, scores.finetuned_eq, summary_eq, others_eq]
    steps_eq := by
      have scored_eq :
          (r.candidates.map Candidate.steps).sum = (scored.map Candidate.steps).sum := by
        rcases unscored_or_scored with ⟨empty, made_up⟩ | ⟨-, same⟩
        · rw [made_up, empty]
          rfl
        · rw [same]
      rw [scored_eq, scores.steps_eq, summary_eq, others_eq]
    winner_eq := winner_eq
    selected_iff := by
      rw [survivors_eq, ← winner_lt_iff, summary_eq]
      by_cases winner_lt : r.winner.source < raw.length <;> simp [winner_lt]
    fallback_eq := fun no_survivor => by
      rw [survivors_eq] at no_survivor
      rcases unscored_or_scored with ⟨empty, made_up⟩ | ⟨nonempty, -⟩
      · refine ⟨made_up, ?_⟩
        rw [summary_eq]
        exact if_neg fun winner_lt => winner_lt_iff.mp winner_lt empty
      · exact absurd no_survivor nonempty }

/-- Two samples of a line through the origin. -/
def lineSamples : Dataset := ⟨Matrix.ofColumn [1, 2], [2, 4], by decide, by simp, by decide⟩

/-- A configuration that optimizes constants by one step. -/
def oneStep : Config := { finetune := true, finetuneSteps := 1, randomState := some 1 }

theorem lineSamples_accounted :
    ∃ r, refine oneStep ["x_0 +", "erf(x_0)", "1.5*x_0"] lineSamples = .ok r ∧
      r.summary = {
        raw := 3
        parsed := 2
        sanitized := 2
        finetuned := 1
        dropped := 2
        steps := 1
        selected := some 2 } ∧
      Accounted oneStep ["x_0 +", "erf(x_0)", "1.5*x_0"] lineSamples r := by
  have summary_eq : (refine oneStep ["x_0 +", "erf(x_0)", "1.5*x_0"] lineSamples).toOption.map
      summary = some ⟨3, 2, 2, 1, 0, 2, 1, some 2⟩ := by decide +kernel
  cases refined : refine oneStep ["x_0 +", "erf(x_0)", "1.5*x_0"] lineSamples with
  | error e =>
      rw [refined] at summary_eq
      cases summary_eq
  | ok r =>
      rw [refined] at summary_eq
      exact ⟨r, rfl, Option.some.inj summary_eq, accounted_of_refine _ _ _ r refined⟩

end Refinement
end FormulaFit
