import FormulaFit.Proofs.Json.Records
import FormulaFit.Proofs.Refine.Scoring
import FormulaFit.Proofs.Refine.Usability

/-!
# Stored models

A fit puts only formulas into a model that came out of a repair, whose stored literals are all
finite, or the mean of the targets, which is finite wherever its error is.  What keeps a model from
being reloaded is therefore its training error alone: predictions are finite, but squares of
residuals can overflow, and an infinite error is stored as null.  A model with a finite error comes
back without its imputation and unchanged in everything else.
-/

namespace FormulaFit

section Literals

theorem Tree.all_heads {α : Type} {names : List (Node α Unit)} {t : Tree α}
    (each : ∀ h ∈ t.heads, h ∈ names) : t.All fun n => (n.map fun _ => ()).head ∈ names := by
  induction t using Tree.induction with
  | step n ih =>
      rw [heads_mk] at each
      obtain ⟨here, below⟩ := List.forall_mem_cons.mp each
      exact .mk ((n.head_map _).symm ▸ here) fun t is_child =>
        ih t is_child fun h member => below h (List.mem_flatMap.mpr ⟨t, is_child, member⟩)

namespace Expr

/-- A formula that came out of a repair. -/
def IsRepaired (s : Expr Float) : Prop := ∃ policy e, Expr.sanitize policy e = .ok s

theorem exists_finish_of_settle {deadline : Deadline} {placeholder : Float} {turns : Nat}
    {t : Tree Float} {s : Expr Float} (settled : t.settle deadline placeholder turns = .ok s) :
    ∃ u : Tree Float, u.finish = .ok s := by
  induction turns generalizing t with
  | zero => exact ⟨_, settled⟩
  | succ turns ih =>
      rw [Tree.settle] at settled
      split at settled
      · exact ih settled
      · exact ⟨_, settled⟩

theorem IsRepaired.exists_finish {s : Expr Float} (repaired : s.IsRepaired) :
    ∃ t : Tree Float, t.finish = .ok s := by
  obtain ⟨policy, e, repaired⟩ := repaired
  rw [sanitize_eq, bind_eq_ok_iff] at repaired
  obtain ⟨_, -, repaired⟩ := repaired
  split at repaired
  · cases repaired
  · exact exists_finish_of_settle repaired

/-- All literals stored for a repaired formula are finite, and its indices are words if it has no
more nodes than there are words. -/
structure IsSound (e : Expr Float) : Prop where
  isFinite : ∀ v, .const v ∈ e.nodes.toList → v.isFinite = true
  isIndexed : e.nodes.size ≤ UInt32.size → e.IsIndexed

theorem IsRepaired.isSound {s : Expr Float} (repaired : s.IsRepaired) : s.IsSound := by
  obtain ⟨t, finished⟩ := repaired.exists_finish
  obtain ⟨rfl, valid, regular⟩ := finish_eq_ok finished
  refine ⟨fun v member => ?_, valid.isIndexed⟩
  obtain ⟨i, found⟩ := Array.getElem?_of_mem (Array.mem_toList_iff.mp member)
  have head_mem := Tree.All.of_store (P := fun n => n.head ∈ t.heads)
    (Tree.all_heads fun h is_head => is_head) found
  rw [Node.head_map, ← t.unfold_store] at head_mem
  obtain ⟨n, reaches, head_eq⟩ := valid.exists_reaches_of_mem_heads head_mem
  have kept := regular n reaches
  rw [← Node.isDegenerate_head, head_eq] at kept
  exact (Bool.not_eq_false' v.isFinite).mp kept

theorem isSound_constant {v : Float} (finite : v.isFinite = true) : (constant v).IsSound where
  isFinite w member := by
    obtain rfl : w = v := by simpa [constant] using member
    exact finite
  isIndexed _ := ⟨Nat.zero_lt_succ _, fun n member c is_child => by
    obtain rfl : n = .const v := by simpa [constant] using member
    cases is_child⟩

end Expr

end Literals

namespace Refinement

variable {config : Config} {data : Dataset}

/-- Both forms of the candidate came out of repairs. -/
structure Mended (w : Working) : Prop where
  sanitized : w.sanitized.IsRepaired
  expr : w.candidate.expr.IsRepaired

theorem mended_of_mem_repaired {position : Nat} {texts : List String} {w : Working}
    (member : w ∈ repaired config position texts) : Mended w := by
  obtain ⟨i, text, s, -, fixed, rfl⟩ := mem_repaired_iff.mp member
  obtain ⟨e, -, fixed⟩ := bind_eq_ok_iff.mp fixed
  exact ⟨⟨_, e, fixed⟩, ⟨_, e, fixed⟩⟩

theorem Mended.of_tune {seed budget : UInt64} {w after : Working} (mended : Mended w)
    (tuned : tune config data seed budget w = .ok after) : Mended after := by
  obtain ⟨outcome, finished, after_eq⟩ := bind_eq_ok_iff.mp tuned
  cases after_eq
  by_cases is_tuned : outcome.status = .tuned
  · simp only [is_tuned, if_true]
    refine ⟨mended.sanitized, ?_⟩
    rcases Finetune.steps_eq_zero_or_exists_descend finished with
      ⟨-, untuned, -⟩ | ⟨-, program, initial, d, -, -, concluded⟩
    · exact absurd is_tuned untuned
    · obtain ⟨-, ⟨_, -, fixed⟩, -⟩ := Finetune.tuned_of_conclude concluded is_tuned
      exact ⟨_, _, fixed⟩
  · simp only [is_tuned, if_false]
    exact ⟨mended.sanitized, mended.expr⟩

theorem Mended.of_staged {w after : Working} (mended : Mended w)
    (staged : Staged config data w after) : Mended after := by
  rw [Staged] at staged
  split at staged
  · obtain ⟨budget, tuned⟩ := staged
    exact mended.of_tune tuned
  · exact staged ▸ mended

/-- A scored candidate as far as it is stored: its formula came out of a repair, or it is the mean
of the targets with the error of the mean. -/
structure Stored (config : Config) (data : Dataset) (c : Candidate) : Prop where
  complexity_eq : c.complexity = some (c.expr.complexity config.complexityMetric)
  formula : c.expr.IsRepaired ∨
    c.expr = .constant data.targetMean ∧ c.error = some (meanError data)

theorem stored_fallback (source : Nat) : Stored config data (fallback config data source) :=
  ⟨rfl, .inr ⟨rfl, rfl⟩⟩

theorem stored_rate {c : Candidate} (repaired : c.expr.IsRepaired) (values : List Float) :
    Stored config data (rate config data c values) := by
  rw [rate]
  split
  · exact ⟨rfl, .inl repaired⟩
  · exact ⟨rfl, .inr ⟨rfl, rfl⟩⟩

/-- Whichever form of a candidate is evaluated, it came out of a repair. -/
theorem Mended.isRepaired_of_predictions {w : Working} (mended : Mended w) {c : Candidate}
    {result : Except Error (List Float)} (predicted : predictions config data w = (c, result)) :
    c.expr.IsRepaired := by
  rw [predictions] at predicted
  simp only at predicted
  split at predicted
  · split at predicted <;> cases predicted
    · exact mended.expr
    · exact mended.sanitized
  · cases predicted
    exact mended.expr

theorem Mended.stored_of_score {w : Working} (mended : Mended w) {c : Candidate}
    (scored : score config data w = .ok (some c)) : Stored config data c := by
  rw [score] at scored
  split at scored
  · rename_i c values predicted
    cases scored
    exact stored_rate (mended.isRepaired_of_predictions predicted) values
  · split at scored <;> cases scored

theorem stored_winner {raw : List String} {r : Refinement}
    (refined : refine config raw data = .ok r) : Stored config data r.winner := by
  obtain ⟨pool, results, staged, scored, candidates_eq⟩ := exists_scores_of_refine refined
  obtain ⟨-, -, -, -, -, -, -, winner_eq, -⟩ := exists_stages_of_refine refined
  have member := List.mem_of_getElem? winner_eq
  rw [candidates_eq, gather] at member
  split at member
  · rw [List.mem_singleton.mp member]
    exact stored_fallback _
  · obtain ⟨result, is_result, rfl⟩ := List.mem_filterMap.mp member
    obtain ⟨w, in_pool, scored_w⟩ := exists_mem_of_forall₂ scored is_result
    obtain ⟨before, is_repaired, staged_w⟩ := exists_mem_of_forall₂ staged in_pool
    exact ((mended_of_mem_repaired is_repaired).of_staged staged_w).stored_of_score scored_w

theorem isFinite_of_meanError (finite : (meanError data).isFinite = true) :
    data.targetMean.isFinite = true := by
  have rows_ne : data.targets.length ≠ 0 := data.rows_eq ▸ Nat.ne_of_gt data.rows_pos
  exact (Dataset.isFinite_of_error finite).2 _ (List.mem_replicate.mpr ⟨rows_ne, rfl⟩)

/-- A stored candidate with a finite error has a sound formula. -/
theorem Stored.isSound {c : Candidate} (stored : Stored config data c)
    (finite : (c.error.getD (0 / 0)).isFinite = true) : c.expr.IsSound := by
  rcases stored.formula with repaired | ⟨expr_eq, error_eq⟩
  · exact repaired.isSound
  · rw [error_eq, Option.getD_some] at finite
    exact expr_eq ▸ Expr.isSound_constant (isFinite_of_meanError finite)

theorem counts_le_of_refine {raw : List String} {r : Refinement}
    (refined : refine config raw data = .ok r) :
    ∀ n ∈ r.summary.counts, n ≤ r.summary.raw ∨ n = r.summary.steps := by
  obtain ⟨pool, summary, scored, summary', optimized, finished, -, -, summary_eq⟩ :=
    exists_stages_of_refine refined
  obtain ⟨advances, counted⟩ := advances_of_finetuneStage (fun w => fresh_of_mem_repaired) rfl rfl
    optimized
  have scores := scores_of_scoreAll (ready_of_advances advances) finished
  have length_eq := length_repaired config 0 raw
  rw [advances.length_eq] at length_eq
  have others_eq := scores.others_eq
  have dropped_eq := scores.dropped_eq
  have degraded_eq := scores.degraded_eq
  rw [counted] at others_eq dropped_eq degraded_eq
  have finetuned_le : (pool.countP fun w => w.candidate.status = .finetuned) ≤ pool.length :=
    List.countP_le_length
  have degraded_le : (scored.countP fun c => c.status = .degraded) ≤ scored.length :=
    List.countP_le_length
  generalize summary'.degraded = degraded at others_eq degraded_eq
  generalize summary'.dropped = dropped at others_eq dropped_eq
  rw [summary_eq, others_eq]
  simp only [Summary.counts, List.forall_mem_append, List.forall_mem_cons]
  simp only at dropped_eq degraded_eq
  refine ⟨⟨.inl (Nat.le_refl _), .inl List.countP_le_length, .inl List.countP_le_length,
    .inl (by omega), .inl (by omega), .inl (by omega), .inr trivial, by simp⟩,
    fun n member => .inl ?_⟩
  split at member
  · rename_i source_lt
    obtain rfl : n = r.winner.source := by simpa using member
    exact Nat.le_of_lt source_lt
  · simp at member

end Refinement

namespace Model

/-- The doubles of a model. -/
def doubles (m : Model) : List Float :=
  m.trainingError :: m.divisionPlaceholder :: m.expr.nodes.toList.filterMap Node.literal?

/-- The counts of a model and the places of its nodes fit the words of stored data. -/
structure FitsWords (m : Model) : Prop where
  raw_lt : m.summary.raw < UInt64.size
  steps_lt : m.summary.steps < UInt64.size
  nodes_le : m.expr.nodes.size ≤ UInt32.size

instance (m : Model) : Decidable m.FitsWords :=
  decidable_of_iff (m.summary.raw < UInt64.size ∧ m.summary.steps < UInt64.size ∧
      m.expr.nodes.size ≤ UInt32.size)
    ⟨fun ⟨raw_lt, steps_lt, nodes_le⟩ => ⟨raw_lt, steps_lt, nodes_le⟩,
      fun fits => ⟨fits.raw_lt, fits.steps_lt, fits.nodes_le⟩⟩

end Model

namespace Refiner

/-- A model that a fit gives can be stored if its training error is finite. -/
theorem isStorable_of_fit {r : Refiner} {raw : List String} {x : Matrix Float} {y : List Float}
    {m : Model} (accepted : r.config.validate = .ok ()) (fitted : r.fit raw x y = .ok m)
    (fits : m.FitsWords) (reads : ∀ v ∈ m.doubles, v.isFinite = true →
      (Json.ofFloat v).float? = some v)
    (finite : m.trainingError.isFinite = true) : m.IsStorable := by
  obtain ⟨⟨imputation, features⟩, -, fitted⟩ := bind_eq_ok_iff.mp fitted
  obtain ⟨data, -, fitted⟩ := bind_eq_ok_iff.mp fitted
  obtain ⟨refinement, refined, fitted⟩ := bind_eq_ok_iff.mp fitted
  obtain rfl : Model.ofCandidate refinement.winner refinement.summary r.config.divisionPlaceholder
    imputation = m := Except.ok.inj fitted
  have stored := Refinement.stored_winner refined
  have sound := stored.isSound finite
  have indexed := sound.isIndexed fits.nodes_le
  obtain ⟨-, placeholder_finite, -⟩ := Config.of_validate accepted
  refine ⟨fun n member => ⟨fun v literal => ?_, indexed.child_lt n member⟩, indexed.root_lt, ?_,
    fun n member => ?_, ?_⟩
  · have literal_finite := sound.isFinite v (literal ▸ member)
    refine reads v ?_ literal_finite
    exact List.mem_cons_of_mem _ (List.mem_cons_of_mem _
      (List.mem_filterMap.mpr ⟨n, member, by rw [literal]; exact if_pos literal_finite⟩))
  · rw [Model.ofCandidate, stored.complexity_eq, Option.getD_some]
    exact UInt64.toNat_lt _
  · rcases Refinement.counts_le_of_refine refined n member with n_le | rfl
    · exact Nat.lt_of_le_of_lt n_le fits.raw_lt
    · exact fits.steps_lt
  · exact reads _ (List.mem_cons_of_mem _ List.mem_cons_self) placeholder_finite

/-- A model is reloaded if and only if its training error is finite, and then it is what was stored:
only its imputation is lost, which no prediction without missing values needs. -/
theorem reloads_iff (config : Config) (r : Refiner) (raw : List String) (x : Matrix Float)
    (y : List Float) (m : Model) (accepted : Refiner.ofConfig config = .ok r)
    (fitted : r.fit raw x y = .ok m) (fits : m.FitsWords)
    (nearest : ∀ v ∈ m.doubles, Json.IsReadNearest v) :
    ((∃ m', Model.ofJsonText m.jsonText = .ok m') ↔ m.trainingError.isFinite = true) ∧
      ∀ m', Model.ofJsonText m.jsonText = .ok m' →
        m' = { m with imputation := none } ∧
          ∀ x : Matrix Float, x.hasMissing = false → m'.predict x = m.predict x := by
  obtain ⟨_, validated, accepted⟩ := bind_eq_ok_iff.mp accepted
  obtain rfl : ⟨config, .columnMean⟩ = r := Except.ok.inj accepted
  cases finite : m.trainingError.isFinite with
  | false =>
      rw [Model.reload_eq_error finite]
      exact ⟨iff_of_false (fun ⟨_, reloaded⟩ => by cases reloaded) Bool.false_ne_true,
        fun m' reloaded => by cases reloaded⟩
  | true =>
      have reads : ∀ v ∈ m.doubles, v.isFinite = true → (Json.ofFloat v).float? = some v :=
        fun v member finite => by rw [Json.float?_ofFloat (nearest v member), if_pos finite]
      have storable := isStorable_of_fit validated fitted fits reads finite
      rw [Model.reload_eq_ok storable (reads _ List.mem_cons_self finite)]
      refine ⟨iff_of_true ⟨_, rfl⟩ rfl, fun m' reloaded => ?_⟩
      obtain rfl := Except.ok.inj reloaded
      refine ⟨rfl, fun x complete => ?_⟩
      have same : Model.complete { m with imputation := none } x = m.complete x := by
        rw [Model.complete, Model.complete, complete]
        rfl
      rw [Model.predict, Model.predict, same]
      rfl

theorem gappyColumn_reloads :
    ∃ r m, Refiner.ofConfig Refinement.oneStep = .ok r ∧
      r.fit ["x_0 +", "1.5*x_0"] gappyColumn risingTargets = .ok m ∧ m.FitsWords ∧
      (∀ v ∈ m.doubles, Json.IsReadNearest v) ∧ m.imputation.isSome = true ∧
      ∃ m', Model.ofJsonText m.jsonText = .ok m' ∧ m' = { m with imputation := none } ∧
        m'.predict twoRows = m.predict twoRows := by
  have accepted : Refiner.ofConfig Refinement.oneStep = .ok ⟨Refinement.oneStep, .columnMean⟩ :=
    bind_eq_ok_iff.mpr ⟨(), by decide +kernel, rfl⟩
  have checked : ((fit ⟨Refinement.oneStep, .columnMean⟩ ["x_0 +", "1.5*x_0"] gappyColumn
      risingTargets).toOption.map fun m => decide (m.FitsWords ∧
        (∀ v ∈ m.doubles, Json.IsReadNearest v) ∧ m.imputation.isSome = true ∧
        m.trainingError.isFinite = true)) = some true := by decide +kernel
  obtain ⟨m, fitted, checked⟩ := exists_of_map_toOption checked
  obtain ⟨fits, nearest, imputed, finite⟩ := of_decide_eq_true checked
  obtain ⟨reloads, unchanged⟩ := reloads_iff _ _ _ _ _ m accepted fitted fits nearest
  obtain ⟨m', reloaded⟩ := reloads.mpr finite
  obtain ⟨same, predicts⟩ := unchanged m' reloaded
  exact ⟨_, m, accepted, fitted, fits, nearest, imputed, m', reloaded, same,
    predicts twoRows (by decide +kernel)⟩

/-- Squares of huge residuals overflow, so a model with finite predictions has an infinite error and
is not reloaded, although all its doubles are read as the nearest ones. -/
theorem hugeSlope_not_reloaded :
    ∃ r m, Refiner.ofConfig { randomState := some 3 } = .ok r ∧
      r.fit ["1e200*x_0"] twoRows [1, 2] = .ok m ∧ m.FitsWords ∧
      (∀ v ∈ m.doubles, Json.IsReadNearest v) ∧
      (m.predict twoRows).toOption = some [1e200, 2e200] ∧
      ¬∃ m', Model.ofJsonText m.jsonText = .ok m' := by
  have accepted : Refiner.ofConfig { randomState := some 3 } =
      .ok ⟨{ randomState := some 3 }, .columnMean⟩ :=
    bind_eq_ok_iff.mpr ⟨(), by decide +kernel, rfl⟩
  have checked : ((fit ⟨{ randomState := some 3 }, .columnMean⟩ ["1e200*x_0"] twoRows
      [1, 2]).toOption.map fun m => decide (m.FitsWords ∧
        (∀ v ∈ m.doubles, Json.IsReadNearest v) ∧
        (m.predict twoRows).toOption = some [1e200, 2e200] ∧
        m.trainingError.isFinite = false)) = some true := by decide +kernel
  obtain ⟨m, fitted, checked⟩ := exists_of_map_toOption checked
  obtain ⟨fits, nearest, predicted, infinite⟩ := of_decide_eq_true checked
  refine ⟨_, m, accepted, fitted, fits, nearest, predicted, fun ⟨m', reloaded⟩ => ?_⟩
  rw [Model.reload_eq_error infinite] at reloaded
  cases reloaded

end Refiner

end FormulaFit
