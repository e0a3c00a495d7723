import FormulaFit.Proofs.Optimize.Finetuning
import FormulaFit.Refine.Pool

/-!
# Stages of a refinement

Each stage is described by what it makes of every candidate and by what it adds to the counts.
Reading and repair pick out the texts that are formulas; optimization keeps the order of the
candidates and leaves each ready to be scored; scoring drops only candidates without steps.
-/

namespace FormulaFit

theorem Budget.length_spread {σ : Type} [WordSource σ] (slots : List UInt64) (remainder : Nat)
    (source : σ) : (spread slots remainder source).1.length = slots.length := by
  have folded : ∀ (chosen : List Nat) (slots : List UInt64),
      (chosen.foldl (fun slots i => slots.modify i (· + 1)) slots).length = slots.length := by
    intro chosen
    induction chosen with
    | nil => exact fun _ => rfl
    | cons i chosen ih => exact fun slots => (ih _).trans (List.length_modify _ _ _)
  exact folded _ slots

theorem Budget.length_partition {σ : Type} [WordSource σ] (total : UInt64) (counts : List Nat)
    (source : σ) : (partition total counts source).1.length = counts.length := by
  unfold partition
  split
  · rename_i empty
    rw [List.isEmpty_iff.mp empty]
    rfl
  · rw [length_spread, floors, List.length_map, weights]
    split <;> simp

namespace Refinement

-- Sums start from the numeral zero, whatever else is imported.
attribute [local instance (high)] Zero.ofOfNat0

theorem read_eq_ok_iff {text : String} {e : Expr Float} :
    read text = .ok e ↔ Formula.parse text = .ok e := by
  rw [read]
  cases Formula.parse text <;> simp [Except.mapError]

/-- Reads and repairs a text. -/
def repair (config : Config) (text : String) : Except Error (Expr Float) := do
  (← read text).sanitize config.sanitizePolicy

/-- The candidates of texts, the first of which has a given position. -/
def repaired (config : Config) : (position : Nat) → List String → List Working
  | _, [] => []
  | i, text :: texts =>
    match repair config text with
    | .ok s => ⟨.ofExpr i s, s⟩ :: repaired config (i + 1) texts
    | .error _ => repaired config (i + 1) texts

/-- Reading and repair give the candidates of the texts that are formulas, and count the texts by
how far they get. -/
theorem sanitizeAll_eq (config : Config) (position : Nat) (texts : List String)
    (summary : Summary) :
    sanitizeAll config position texts summary = (repaired config position texts,
      { summary with
        parsed := summary.parsed + texts.countP fun text => (Formula.parse text).isOk
        sanitized := summary.sanitized + texts.countP fun text => (repair config text).isOk
        dropped := summary.dropped + texts.countP fun text => !(repair config text).isOk }) := by
  induction texts generalizing position summary with
  | nil => rfl
  | cons text texts ih =>
      cases parsed : Formula.parse text with
      | error e =>
          have unread : read text = .error (.parse e) := by rw [read, parsed]; rfl
          have unrepaired : repair config text = .error (.parse e) := by rw [repair, unread]; rfl
          rw [sanitizeAll, unread]
          simp only [ih, repaired, unrepaired, List.countP_cons, parsed, Except.isOk, Except.toBool]
          simp [Nat.add_assoc, Nat.add_comm 1]
      | ok e =>
          have is_read : read text = .ok e := by rw [read, parsed]; rfl
          have repair_eq : repair config text = e.sanitize config.sanitizePolicy := by
            rw [repair, is_read]; rfl
          rw [sanitizeAll, is_read]
          cases sanitized : e.sanitize config.sanitizePolicy with
          | error fault =>
              simp only [sanitized, ih, repaired, repair_eq, List.countP_cons, parsed, Except.isOk,
                Except.toBool]
              simp [Nat.add_assoc, Nat.add_comm 1]
          | ok s =>
              simp only [sanitized, ih, repaired, repair_eq, List.countP_cons, parsed, Except.isOk,
                Except.toBool]
              simp [Nat.add_assoc, Nat.add_comm 1]

theorem mem_repaired_iff {config : Config} {position : Nat} {texts : List String} {w : Working} :
    w ∈ repaired config position texts ↔ ∃ i text s, texts[i]? = some text ∧
      repair config text = .ok s ∧ w = ⟨.ofExpr (position + i) s, s⟩ := by
  induction texts generalizing position with
  | nil => simp [repaired]
  | cons text texts ih =>
      have later : (∃ i text' s, (text :: texts)[i + 1]? = some text' ∧
          repair config text' = .ok s ∧ w = ⟨.ofExpr (position + (i + 1)) s, s⟩) ↔
            w ∈ repaired config (position + 1) texts := by
        simp only [List.getElem?_cons_succ, ih, Nat.add_comm, Nat.add_left_comm]
      rw [← Nat.or_exists_add_one, later, repaired]
      cases fixed : repair config text with
      | ok s => simp [fixed]
      | error e => simp [fixed]

theorem sources_repaired (config : Config) (position : Nat) (texts : List String) :
    ((repaired config position texts).map fun w => w.candidate.source).Sublist
      (List.range' position texts.length) := by
  induction texts generalizing position with
  | nil => exact .slnil
  | cons text texts ih =>
      rw [repaired, List.length_cons, List.range'_succ]
      cases repair config text with
      | ok s => exact (ih (position + 1)).cons_cons position
      | error e => exact (ih (position + 1)).cons position

theorem length_repaired (config : Config) (position : Nat) (texts : List String) :
    (repaired config position texts).length +
      texts.countP (fun text => !(repair config text).isOk) = texts.length := by
  induction texts generalizing position with
  | nil => rfl
  | cons text texts ih =>
      have later := ih (position + 1)
      rw [repaired, List.countP_cons]
      cases repair config text with
      | ok s => simp [Except.isOk, Except.toBool] at later ⊢; omega
      | error e => simp [Except.isOk, Except.toBool] at later ⊢; omega

/-- The training predictions of a formula. -/
def evaluation (config : Config) (data : Dataset) (e : Expr Float) : Except Error (List Float) :=
  e.evaluate (config.compileOptions data.featureCount) data.features

/-- A candidate with its constants as they were read.  Steps were spent on it only if evaluating it
fails by nothing but a crash. -/
structure Untouched (config : Config) (data : Dataset) (w : Working) : Prop where
  status_eq : w.candidate.status = .untouched
  /-- The formula is still the repaired one. -/
  expr_eq : w.candidate.expr = w.sanitized
  /-- A candidate with steps is not dropped. -/
  crashOnly : 0 < w.candidate.steps → CrashOnly (evaluation config data w.sanitized)

/-- A candidate with optimized constants.  It has finite predictions. -/
structure Tuned (config : Config) (data : Dataset) (w : Working) : Prop where
  status_eq : w.candidate.status = .finetuned
  /-- The repaired formula can be evaluated. -/
  closed : w.sanitized.IsClosed data.featureCount
  /-- The optimized one can be evaluated and is not degraded. -/
  finite : ∃ values, evaluation config data w.candidate.expr = .ok values ∧
    ∀ v ∈ values, v.isFinite = true

/-- A candidate as scoring finds it. -/
structure Ready (config : Config) (data : Dataset) (w : Working) : Prop where
  /-- The candidate comes from a repaired formula. -/
  sanitized : w.sanitized.Sanitized
  /-- Its constants were optimized or not. -/
  progress : Untouched config data w ∨ Tuned config data w

/-- Optimization makes one candidate of another. -/
structure Advances (config : Config) (data : Dataset) (before after : Working) : Prop where
  /-- The candidate is that of the same text. -/
  source_eq : after.candidate.source = before.candidate.source
  /-- The repaired formula is remembered. -/
  sanitized_eq : after.sanitized = before.sanitized
  /-- The candidate can be scored. -/
  ready : Ready config data after

/-- A candidate of a text that was just repaired. -/
structure Fresh (w : Working) : Prop where
  /-- The formula is repaired. -/
  sanitized : w.sanitized.Sanitized
  /-- Nothing happened to it yet. -/
  candidate_eq : w.candidate = .ofExpr w.candidate.source w.sanitized

variable {config : Config} {data : Dataset}

theorem fresh_of_mem_repaired {position : Nat} {texts : List String} {w : Working}
    (member : w ∈ repaired config position texts) : Fresh w := by
  obtain ⟨i, text, s, -, fixed, rfl⟩ := mem_repaired_iff.mp member
  obtain ⟨e, -, fixed⟩ := bind_eq_ok_iff.mp fixed
  exact ⟨Expr.sanitized_of_sanitize fixed, rfl⟩

theorem Fresh.steps_eq {w : Working} (fresh : Fresh w) : w.candidate.steps = 0 := by
  rw [fresh.candidate_eq]
  rfl

theorem Fresh.untouched {w : Working} (fresh : Fresh w) : Untouched config data w where
  status_eq := by
    rw [fresh.candidate_eq]
    rfl
  expr_eq := by
    conv_lhs => rw [fresh.candidate_eq]
    rfl
  crashOnly spent := absurd fresh.steps_eq (Nat.ne_of_gt spent)

theorem Fresh.advances {w : Working} (fresh : Fresh w) : Advances config data w w :=
  ⟨rfl, rfl, fresh.sanitized, .inl fresh.untouched⟩

theorem advances_of_tune {seed budget : UInt64} {w after : Working} (fresh : Fresh w)
    (tuned : tune config data seed budget w = .ok after) : Advances config data w after := by
  obtain ⟨outcome, finished, after_eq⟩ := bind_eq_ok_iff.mp tuned
  have wide : (config.finetuneSettings data.featureCount).compile.featureCount ≤
      data.features.cols := Nat.le_refl _
  cases after_eq
  by_cases is_tuned : outcome.status = .tuned
  · obtain ⟨closed, finite⟩ := Finetune.isClosed_of_tuned fresh.sanitized wide finished is_tuned
    simp only [is_tuned, if_true]
    exact ⟨rfl, rfl, fresh.sanitized, .inr ⟨rfl, closed, finite⟩⟩
  · simp only [is_tuned, if_false]
    have untouched : Untouched config data w := fresh.untouched
    exact ⟨rfl, rfl, fresh.sanitized, .inl ⟨untouched.status_eq, untouched.expr_eq,
      Finetune.crashOnly_of_steps fresh.sanitized wide finished⟩⟩

theorem forall₂_of_turns {optimize : UInt64 → Working → Except Error Working} {i : Nat}
    {ledger : Budget.Ledger} {source : ChaCha.Generator} {pool : List Working}
    {results : List Turn} (taken : turns optimize i ledger source pool = .ok results) :
    List.Forall₂ (fun w after => ∃ budget, optimize budget w = .ok after) pool
      (results.map Turn.working) := by
  induction pool generalizing i ledger source results with
  | nil =>
      cases taken
      exact .nil
  | cons w pool ih =>
      obtain ⟨after, optimized, taken⟩ := bind_eq_ok_iff.mp taken
      obtain ⟨later, taken_later, results_eq⟩ := bind_eq_ok_iff.mp taken
      cases results_eq
      exact .cons ⟨_, optimized⟩ (ih taken_later)

theorem mapM_zip_replicate {β γ δ : Type} (f : β × γ → Except Error δ) (c : γ) (items : List β) :
    (items.zip (List.replicate items.length c)).mapM f = items.mapM fun b => f (b, c) := by
  induction items with
  | nil => rfl
  | cons b items ih =>
      rw [List.length_cons, List.replicate_succ, List.zip_cons_cons, List.mapM_cons, ih,
        List.mapM_cons]

/-- Without steps to share, optimizing the candidates side by side is optimizing them in turn. -/
theorem tuneAll_unshared (unshared : config.finetuneMaxEvals = none) (seed : UInt64)
    (pool : List Working) :
    tuneAll config data seed pool = pool.mapM (tune config data seed config.finetuneSteps) := by
  rw [tuneAll, budgets, unshared]
  dsimp only
  rw [List.length_map, mapM_zip_replicate]
  exact ite_self _

/-- Shared steps are divided before candidates are optimized side by side, and passed on from one
to the next if they take turns. -/
theorem tuneAll_shared {total : UInt64} (shared : config.finetuneMaxEvals = some total)
    (seed : UInt64) (pool : List Working) : tuneAll config data seed pool =
      let counts := pool.map fun w => w.candidate.expr.freeConstantCount
      let source := ChaCha.Generator.ofSeed seed 0
      if config.parallel then
        (pool.zip (Budget.partition total counts source).1).mapM fun share =>
          tune config data seed share.2 share.1
      else (do
        let (ledger, source) := Budget.Ledger.proportional total counts source
        return (← turns (tune config data seed) 0 ledger source pool).map Turn.working) := by
  rw [tuneAll, budgets, shared]

theorem forall₂_tune_of_tuneAll {seed : UInt64} {pool results : List Working}
    (tuned : tuneAll config data seed pool = .ok results) :
    List.Forall₂ (fun w after => ∃ budget, tune config data seed budget w = .ok after) pool
      results := by
  cases shared : config.finetuneMaxEvals with
  | none =>
      rw [tuneAll_unshared shared] at tuned
      exact (mapM_eq_ok_iff.mp tuned).imp fun w after optimized => ⟨_, optimized⟩
  | some total =>
      rw [tuneAll_shared shared] at tuned
      cases side_by_side : config.parallel with
      | true =>
          simp only [side_by_side, if_true] at tuned
          let counts := pool.map fun w => w.candidate.expr.freeConstantCount
          let shares := (Budget.partition total counts (ChaCha.Generator.ofSeed seed 0)).1
          have pool_eq : (pool.zip shares).map Prod.fst = pool :=
            List.map_fst_zip (by simp [shares, counts, Budget.length_partition])
          have optimized := mapM_eq_ok_iff.mp tuned
          change List.Forall₂ _ (pool.zip shares) results at optimized
          rw [← pool_eq, List.forall₂_map_left_iff]
          exact optimized.imp fun item after optimized => ⟨_, optimized⟩
      | false =>
          simp only [side_by_side] at tuned
          obtain ⟨later, taken, results_eq⟩ := bind_eq_ok_iff.mp tuned
          cases results_eq
          exact forall₂_of_turns taken

theorem advances_of_tuneAll {seed : UInt64} {pool results : List Working}
    (fresh : ∀ w ∈ pool, Fresh w) (tuned : tuneAll config data seed pool = .ok results) :
    List.Forall₂ (Advances config data) pool results :=
  ((List.forall₂_and_left _ _).mpr ⟨fresh, forall₂_tune_of_tuneAll tuned⟩).imp
    fun _ _ ⟨fresh_w, _, optimized⟩ => advances_of_tune fresh_w optimized

theorem advances_of_finetuneStage {seed : UInt64} {pool results : List Working}
    {summary summary' : Summary} (fresh : ∀ w ∈ pool, Fresh w)
    (finetuned_eq : summary.finetuned = 0) (steps_eq : summary.steps = 0)
    (staged : finetuneStage config data seed pool summary = .ok (results, summary')) :
    List.Forall₂ (Advances config data) pool results ∧ summary' = { summary with
      finetuned := results.countP fun w => w.candidate.status = .finetuned
      steps := (results.map fun w => w.candidate.steps).sum } := by
  rw [finetuneStage] at staged
  split at staged
  · obtain ⟨tuned, optimized, staged⟩ := bind_eq_ok_iff.mp staged
    cases staged
    exact ⟨advances_of_tuneAll fresh optimized, rfl⟩
  · cases staged
    refine ⟨List.forall₂_same.mpr fun w member => (fresh w member).advances, ?_⟩
    have untuned : (pool.countP fun w => w.candidate.status = .finetuned) = 0 := by
      refine List.countP_eq_zero.mpr fun w member => ?_
      have untouched : Untouched config data w := (fresh w member).untouched
      rw [untouched.status_eq]
      decide
    have unspent : (pool.map fun w => w.candidate.steps).sum = 0 := by
      refine List.sum_eq_zero_iff_forall_eq_nat.mpr fun n steps_of => ?_
      obtain ⟨w, member, rfl⟩ := List.mem_map.mp steps_of
      exact (fresh w member).steps_eq
    rw [untuned, unspent]
    cases summary
    simp_all

/-- The candidate has training predictions. -/
def evaluates (config : Config) (data : Dataset) (w : Working) : Bool :=
  (evaluation config data w.candidate.expr).isOk

theorem Ready.evaluates_iff {w : Working} (ready : Ready config data w)
    (unexpired : config.compileTimeoutMs ≠ 0) :
    evaluates config data w = true ↔ w.sanitized.IsClosed data.featureCount := by
  have unexpired : (config.compileOptions data.featureCount).timeoutMs ≠ 0 := fun expired =>
    unexpired (UInt64.toNat_inj.mp expired)
  rcases ready.progress with untouched | tuned
  · rw [evaluates, untouched.expr_eq]
    constructor
    · intro evaluated
      cases found : evaluation config data w.sanitized with
      | ok values => exact ready.sanitized.isClosed_of_evaluate data.rows_pos found
      | error e => simp [found, Except.isOk, Except.toBool] at evaluated
    · intro closed
      obtain ⟨values, evaluated⟩ := ready.sanitized.exists_evaluate closed unexpired
        (Nat.le_refl _) data.rows_pos
      change evaluation config data w.sanitized = .ok values at evaluated
      rw [evaluated]
      rfl
  · obtain ⟨values, evaluated, -⟩ := tuned.finite
    simp [evaluates, evaluated, Except.isOk, Except.toBool, tuned.closed]

theorem predictions_of_ok {w : Working} {values : List Float}
    (evaluated : evaluation config data w.candidate.expr = .ok values) :
    predictions config data w = (w.candidate, .ok values) := by
  rw [evaluation] at evaluated
  simp only [predictions, evaluated]

theorem Untouched.exists_predictions {w : Working} (untouched : Untouched config data w) {e : Error}
    (failed : evaluation config data w.candidate.expr = .error e) :
    ∃ c, predictions config data w = (c, .error e) := by
  have failed_again : evaluation config data w.sanitized = .error e := untouched.expr_eq ▸ failed
  rw [evaluation] at failed failed_again
  simp only [predictions, failed]
  cases e with
  | timeout stage limitMs =>
      simp only
      split
      · exact ⟨_, rfl⟩
      · exact ⟨_, congrArg _ failed_again⟩
  | _ => exact ⟨_, rfl⟩

theorem Ready.status_ne_of_not_finite {w : Working} (ready : Ready config data w)
    {values : List Float} (evaluated : evaluation config data w.candidate.expr = .ok values)
    (not_finite : values.all Float.isFinite = false) : w.candidate.status ≠ .finetuned := by
  intro status_eq
  rcases ready.progress with untouched | tuned
  · rw [untouched.status_eq] at status_eq
    cases status_eq
  · obtain ⟨values', evaluated', all_finite⟩ := tuned.finite
    obtain rfl := Except.ok.inj (evaluated.symm.trans evaluated')
    rw [List.all_eq_true.mpr all_finite] at not_finite
    cases not_finite

/-- A candidate with training predictions is kept with its steps, and it is degraded only if its
constants are as they were read. -/
theorem Ready.kept {w : Working} (ready : Ready config data w) {ws : List Working}
    {summary summary' : Summary} {results : List Candidate} {values : List Float}
    (evaluated : evaluation config data w.candidate.expr = .ok values)
    (scored : scoreAll config data (w :: ws) summary = .ok (results, summary')) :
    ∃ c later, results = c :: later ∧ c.source = w.candidate.source ∧
      c.steps = w.candidate.steps ∧ (c.status = .finetuned ↔ w.candidate.status = .finetuned) ∧
      scoreAll config data ws { summary with
        degraded := summary.degraded + if c.status = .degraded then 1 else 0 } =
          .ok (later, summary') := by
  rw [scoreAll, predictions_of_ok evaluated] at scored
  cases finite : values.all Float.isFinite with
  | true =>
      simp only [finite, if_true] at scored
      obtain ⟨⟨later, counted⟩, rest, results_eq⟩ := bind_eq_ok_iff.mp scored
      cases results_eq
      have kept : w.candidate.status ≠ .degraded := by
        rcases ready.progress with progress | progress <;> rw [progress.status_eq] <;> decide
      exact ⟨_, later, rfl, rfl, rfl, Iff.rfl, by
        simpa [Candidate.withScores, kept] using rest⟩
  | false =>
      simp only [finite] at scored
      obtain ⟨⟨later, counted⟩, rest, results_eq⟩ := bind_eq_ok_iff.mp scored
      cases results_eq
      have degraded_untuned : CandidateStatus.degraded = .finetuned ↔
          w.candidate.status = .finetuned := by
        simp [ready.status_ne_of_not_finite evaluated finite]
      exact ⟨_, later, rfl, rfl, rfl, degraded_untuned,
        by simpa [Candidate.withScores, Candidate.degrade] using rest⟩

/-- A candidate without training predictions is dropped, and no step was spent on it. -/
theorem Ready.dropped {w : Working} (ready : Ready config data w) {ws : List Working}
    {summary summary' : Summary} {results : List Candidate} {e : Error}
    (failed : evaluation config data w.candidate.expr = .error e)
    (scored : scoreAll config data (w :: ws) summary = .ok (results, summary')) :
    w.candidate.steps = 0 ∧ w.candidate.status ≠ .finetuned ∧
      scoreAll config data ws { summary with dropped := summary.dropped + 1 } =
        .ok (results, summary') := by
  rw [scoreAll] at scored
  rcases ready.progress with untouched | tuned
  · obtain ⟨c, predictions_eq⟩ := untouched.exists_predictions failed
    rw [predictions_eq] at scored
    simp only at scored
    split at scored
    · rename_i recoverable
      refine ⟨?_, by rw [untouched.status_eq]; decide, scored⟩
      -- After a step, only a crash can fail here, and a crash would have failed the scoring.
      by_contra spent
      have crash := untouched.crashOnly (Nat.pos_of_ne_zero spent) e (untouched.expr_eq ▸ failed)
      cases e <;> simp [Error.isCrash] at crash
      cases recoverable
    · cases scored
  · obtain ⟨values, evaluated, -⟩ := tuned.finite
    rw [failed] at evaluated
    cases evaluated

theorem Ready.kept_or_dropped {w : Working} (ready : Ready config data w) {ws : List Working}
    {summary summary' : Summary} {results : List Candidate}
    (scored : scoreAll config data (w :: ws) summary = .ok (results, summary')) :
    (evaluates config data w = true ∧ ∃ c later, results = c :: later ∧
        c.source = w.candidate.source ∧ c.steps = w.candidate.steps ∧
        (c.status = .finetuned ↔ w.candidate.status = .finetuned) ∧
        scoreAll config data ws { summary with
          degraded := summary.degraded + if c.status = .degraded then 1 else 0 } =
            .ok (later, summary')) ∨
      evaluates config data w = false ∧ w.candidate.steps = 0 ∧ w.candidate.status ≠ .finetuned ∧
        scoreAll config data ws { summary with dropped := summary.dropped + 1 } =
          .ok (results, summary') := by
  cases evaluated : evaluation config data w.candidate.expr with
  | ok values => exact .inl ⟨by rw [evaluates, evaluated]; rfl, ready.kept evaluated scored⟩
  | error e => exact .inr ⟨by rw [evaluates, evaluated]; rfl, ready.dropped evaluated scored⟩

end Refinement

end FormulaFit
