import FormulaFit.Proofs.Optimize.Contract
import FormulaFit.Proofs.Selection.Winners

/-!
# The iterate that is put back

An optimization whose evaluations are logged has the same outcome, and the log holds every point
that was evaluated, the initial one first.  If all of these had a finite loss and gradient, the
coefficients that are put back are those of the first entry with the least loss.  A run that time
ends at any of its checks is a run that may take fewer steps.
-/

namespace FormulaFit
namespace Finetune

open Selection (IsFirstLeast isFirstLeast_zero)

/-- An evaluation of the loss: where it was, and the loss and gradient there if they are finite. -/
structure Evaluation where
  params : List Float
  found : Option (Float × List Float)
deriving DecidableEq, Repr

namespace Evaluation

/-- The loss, if it was found. -/
def loss? (v : Evaluation) : Option Float := v.found.map Prod.fst

/-- The iterate that the evaluation makes, if it found a loss. -/
def iterate? (v : Evaluation) : Option Iterate := v.found.map fun found => ⟨found.1, v.params⟩

end Evaluation

/-- The entry of a log with the given coefficients and loss is the first with the least loss. -/
structure IsFirstBest (log : List Evaluation) (k : Nat) (params : List Float) (loss : Float) :
    Prop where
  found : ∃ gradient, log[k]? = some ⟨params, some (loss, gradient)⟩
  le : ∀ v ∈ log, ∀ w, v.loss? = some w → loss ≤ w
  lt : ∀ j < k, ∀ v, log[j]? = some v → ∀ w, v.loss? = some w → loss < w

section Best

theorem foldl_best_eq_better (iterates : List Iterate) (start : Iterate × Nat) (position : Nat) :
    iterates.foldl (fun best i =>
        match best with
        | none => some i
        | some b => if i.loss < b.loss then some i else some b) (some start.1) =
      some ((iterates.zipIdx position).foldl
        (Selection.better fun i j => decide (i.loss < j.loss)) start).1 := by
  induction iterates generalizing start position with
  | nil => rfl
  | cons i iterates ih =>
      rw [List.zipIdx_cons, List.foldl_cons, List.foldl_cons, Selection.better]
      by_cases less : i.loss < start.1.loss
      · simpa [less] using ih (i, position) (position + 1)
      · simpa [less] using ih start (position + 1)

theorem exists_best? {d : Descent} (nonempty : d.iterates ≠ [])
    (finite : ∀ i ∈ d.iterates, i.loss.isFinite = true) :
    ∃ k best, d.best? = some best ∧
      IsFirstLeast (fun i : Iterate => Double.units i.loss) d.iterates k best := by
  obtain ⟨start, iterates, iterates_eq⟩ := List.exists_cons_of_ne_nil nonempty
  have below : Selection.BeatsBelow (fun i j : Iterate => decide (i.loss < j.loss))
      (fun i => Double.units i.loss) fun i => i.loss.isFinite = true :=
    fun i j i_finite j_finite => decide_eq_decide.mpr
      (Double.lt_iff (Double.isNaN_of_finite i_finite) (Double.isNaN_of_finite j_finite))
  rw [iterates_eq] at finite ⊢
  obtain ⟨start_finite, finite⟩ := List.forall_mem_cons.mp finite
  have scanned := foldl_best_eq_better iterates (start, 0) 1
  rw [Descent.best?, iterates_eq]
  rcases Selection.foldl_better below (start, 0) start_finite finite 1 with
    ⟨same, le⟩ | ⟨k, best, found, lt, least⟩
  · rw [same] at scanned
    exact ⟨0, start, scanned, isFirstLeast_zero le⟩
  · rw [found] at scanned
    exact ⟨k + 1, best, scanned, least.cons lt⟩

end Best

section Log

variable {settings : Settings} {data : Dataset} {program : Program Float}

/-- An evaluation that logs itself. -/
def logged (evaluate : List Float → Except Error (Option (Float × List Float)))
    (params : List Float) :
    StateT (List Evaluation) (Except Error) (Option (Float × List Float)) := do
  let found ← evaluate params
  modify (· ++ [⟨params, found⟩])
  return found

theorem run_logged_bind {β : Type}
    (evaluate : List Float → Except Error (Option (Float × List Float))) (params : List Float)
    (next : Option (Float × List Float) → StateT (List Evaluation) (Except Error) β)
    (log : List Evaluation) :
    (logged evaluate params >>= next).run log =
      evaluate params >>= fun found => (next found).run (log ++ [⟨params, found⟩]) := by
  simp only [logged, bind_assoc, StateT.run_bind]
  cases evaluate params <;> rfl

/-- What the log of a run from given coefficients says. -/
structure Logs (program : Program Float) (data : Dataset) (params : List Float) (d : Descent)
    (log : List Evaluation) : Prop where
  evaluated : ∀ v ∈ log, evaluate? program data v.params = .ok v.found
  starts : ∀ v, log.head? = some v → v.params = params
  steps_eq : d.steps = log.length
  failed : d.failed = true → ∃ v ∈ log, v.found = none
  iterates_eq : d.failed = false → log.map Evaluation.iterate? = d.iterates.map some

theorem Logs.after {params next : List Float} {d : Descent} {log : List Evaluation}
    {loss : Float} {gradient : List Float}
    (evaluated : evaluate? program data params = .ok (some (loss, gradient)))
    (logs : Logs program data next d log) :
    Logs program data params (d.after ⟨loss, params⟩)
      (⟨params, some (loss, gradient)⟩ :: log) where
  evaluated := List.forall_mem_cons.mpr ⟨evaluated, logs.evaluated⟩
  starts v head := by
    cases head
    rfl
  steps_eq := by rw [Descent.steps_after, logs.steps_eq, List.length_cons]
  failed failed := by
    obtain ⟨v, member, missing⟩ := logs.failed failed
    exact ⟨v, List.mem_cons_of_mem _ member, missing⟩
  iterates_eq unfailed := by
    rw [List.map_cons, logs.iterates_eq unfailed]
    rfl

theorem logs_nil (params : List Float) : Logs program data params ⟨[], false⟩ [] where
  evaluated := by simp
  starts v head := by cases head
  steps_eq := rfl
  failed failed := by cases failed
  iterates_eq _ := rfl

theorem logs_failed {params : List Float} (evaluated : evaluate? program data params = .ok none) :
    Logs program data params ⟨[], true⟩ [⟨params, none⟩] where
  evaluated := by simpa using evaluated
  starts v head := by
    cases head
    rfl
  steps_eq := rfl
  failed _ := ⟨_, List.mem_cons_self, rfl⟩
  iterates_eq unfailed := by cases unfailed

/-- A run with logged evaluations is the same, and its log is complete. -/
theorem exists_log_of_descend {steps : Nat} {state : Lbfgs.State Float} {params : List Float}
    {lastLoss : Float} {d : Descent}
    (descended : descend settings program data steps state params lastLoss = .ok d)
    (log : List Evaluation) :
    ∃ new, (descendBy settings (logged (evaluate? program data)) steps state params lastLoss).run
        log = .ok (d, log ++ new) ∧ Logs program data params d new := by
  -- The log may hold anything before; every evaluation adds one entry, also one that fails.
  induction steps generalizing state params lastLoss d log with
  | zero =>
      cases descended
      exact ⟨[], by rw [List.append_nil]; rfl, logs_nil params⟩
  | succ steps ih =>
      rw [descend] at descended
      rw [descendBy]
      by_cases late : Deadline.expired ⟨.finetune, settings.timeoutMs⟩ = true
      · rw [if_pos late] at descended ⊢
        cases descended
        exact ⟨[], by rw [List.append_nil]; rfl, logs_nil params⟩
      · rw [if_neg late] at descended ⊢
        obtain ⟨found, evaluated, descended⟩ := bind_eq_ok_iff.mp descended
        simp only [run_logged_bind, evaluated]
        cases found with
        | none =>
            cases descended
            exact ⟨_, rfl, logs_failed evaluated⟩
        | some found =>
            obtain ⟨loss, gradient⟩ := found
            have single : Logs program data params ⟨[⟨loss, params⟩], false⟩
                [⟨params, some (loss, gradient)⟩] := (logs_nil params).after evaluated
            simp only at descended ⊢
            by_cases still : (loss - lastLoss).abs < settings.lbfgs.toleranceChange
            · rw [if_pos still] at descended
              cases descended
              exact ⟨_, by simp only [bind, Except.bind, if_pos still]; rfl, single⟩
            · rw [if_neg still] at descended
              rcases stepped : state.step settings.lbfgs params gradient with
                ⟨next_state, next, moved | converged⟩
              · rw [stepped] at descended
                obtain ⟨rest, descended_rest, whole⟩ := bind_eq_ok_iff.mp descended
                cases whole
                obtain ⟨new, run_eq, logs⟩ :=
                  ih descended_rest (log ++ [⟨params, some (loss, gradient)⟩])
                refine ⟨⟨params, some (loss, gradient)⟩ :: new, ?_, logs.after evaluated⟩
                rw [List.append_assoc, List.singleton_append] at run_eq
                simp only [bind, Except.bind, if_neg still, stepped]
                change ((descendBy settings (logged (evaluate? program data)) steps next_state next
                  loss) >>= fun rest => pure (rest.after ⟨loss, params⟩)).run _ = _
                rw [StateT.run_bind, run_eq]
                rfl
              · rw [stepped] at descended
                cases descended
                exact ⟨_, by simp only [bind, Except.bind, if_neg still, stepped]; rfl, single⟩

theorem isFinite_of_evaluate? {params gradient : List Float} {loss : Float}
    (evaluated : evaluate? program data params = .ok (some (loss, gradient))) :
    loss.isFinite = true := by
  obtain ⟨result?, -, finite⟩ := bind_eq_ok_iff.mp evaluated
  cases result? with
  | none => cases finite
  | some result =>
      dsimp only at finite
      split at finite
      · rename_i both
        cases finite
        exact (Bool.and_eq_true_iff.mp both).1
      · cases finite

theorem Logs.getElem?_eq {params : List Float} {d : Descent} {log : List Evaluation}
    (logs : Logs program data params d log) (unfailed : d.failed = false) (k : Nat) :
    log[k]?.map Evaluation.iterate? = d.iterates[k]?.map some := by
  rw [← List.getElem?_map, ← List.getElem?_map, logs.iterates_eq unfailed]

theorem Logs.exists_evaluation {params : List Float} {d : Descent} {log : List Evaluation}
    (logs : Logs program data params d log) (unfailed : d.failed = false) {k : Nat} {i : Iterate}
    (found : d.iterates[k]? = some i) :
    ∃ gradient, log[k]? = some ⟨i.params, some (i.loss, gradient)⟩ := by
  have same := logs.getElem?_eq unfailed k
  rw [found] at same
  obtain ⟨⟨params, found?⟩, logged, iterate_eq⟩ := Option.map_eq_some_iff.mp same
  obtain ⟨⟨loss, gradient⟩, rfl, rfl⟩ := Option.map_eq_some_iff.mp iterate_eq
  exact ⟨gradient, logged⟩

theorem Logs.exists_iterate {params : List Float} {d : Descent} {log : List Evaluation}
    (logs : Logs program data params d log) (unfailed : d.failed = false) {k : Nat}
    {v : Evaluation} (logged : log[k]? = some v) {loss : Float} (loss_eq : v.loss? = some loss) :
    ∃ i, d.iterates[k]? = some i ∧ i.loss = loss := by
  have same := logs.getElem?_eq unfailed k
  rw [logged] at same
  obtain ⟨i, found, iterate_eq⟩ := Option.map_eq_some_iff.mp same.symm
  obtain ⟨found', found_eq, rfl⟩ := Option.map_eq_some_iff.mp iterate_eq.symm
  rw [Evaluation.loss?, found_eq] at loss_eq
  exact ⟨_, found, Option.some.inj loss_eq⟩

theorem Logs.isFinite {params : List Float} {d : Descent} {log : List Evaluation}
    (logs : Logs program data params d log) (unfailed : d.failed = false) :
    ∀ i ∈ d.iterates, i.loss.isFinite = true := by
  intro i member
  obtain ⟨k, found⟩ := List.getElem?_of_mem member
  obtain ⟨gradient, logged⟩ := logs.exists_evaluation unfailed found
  have evaluated := logs.evaluated _ (List.mem_of_getElem? logged)
  exact isFinite_of_evaluate? evaluated

/-- The best iterate of a run that did not fail is the first entry of its log with the least
loss. -/
theorem Logs.exists_isFirstBest {params : List Float} {d : Descent} {log : List Evaluation}
    (logs : Logs program data params d log) (unfailed : d.failed = false) (nonempty : log ≠ []) :
    ∃ k best, d.best? = some best ∧ IsFirstBest log k best.params best.loss := by
  have iterates_ne : d.iterates ≠ [] := fun empty => nonempty (by
    simpa [empty] using logs.iterates_eq unfailed)
  have finite := logs.isFinite unfailed
  obtain ⟨k, best, best_eq, least⟩ := exists_best? iterates_ne finite
  have best_finite := finite best (List.mem_of_getElem? least.getElem?_eq)
  have number := Double.isNaN_of_finite best_finite
  refine ⟨k, best, best_eq, logs.exists_evaluation unfailed least.getElem?_eq, ?_, ?_⟩
  · intro v member loss loss_eq
    obtain ⟨j, logged⟩ := List.getElem?_of_mem member
    obtain ⟨i, found, rfl⟩ := logs.exists_iterate unfailed logged loss_eq
    have member := List.mem_of_getElem? found
    exact (Double.le_iff number (Double.isNaN_of_finite (finite i member))).mpr
      (least.le i member)
  · intro j j_lt v logged loss loss_eq
    obtain ⟨i, found, rfl⟩ := logs.exists_iterate unfailed logged loss_eq
    have member := List.mem_of_getElem? found
    exact (Double.lt_iff number (Double.isNaN_of_finite (finite i member))).mpr
      (least.lt j j_lt i found)

end Log

section Outcome

variable {σ : Type} [WordSource σ] {settings : Settings} {data : Dataset} {e : Expr Float}

/-- What becomes of coefficients that are put back after a number of steps: the formula is repaired,
and kept if it is better. -/
def writeBack (settings : Settings) (data : Dataset) (e lifted : Expr Float) (steps : Nat)
    (params : List Float) : Except Error Outcome :=
  match (lifted.insertParams params).sanitize settings.sanitize with
  | .error _ => return ⟨e, steps, .numericFailure⟩
  | .ok tuned => do
    let before ← trainingError settings.compile data e
    let after ← trainingError settings.compile data tuned
    return if isImprovement before after then ⟨tuned, steps, .tuned⟩ else ⟨e, steps, .notImproved⟩

theorem conclude_eq_writeBack {lifted : Expr Float} {d : Descent} {best : Iterate}
    (unfailed : d.failed = false) (best_eq : d.best? = some best) :
    conclude settings data e lifted d = writeBack settings data e lifted d.steps best.params := by
  rw [conclude, unfailed, best_eq]
  rfl

theorem exists_log_of_finetune {maxSteps : Nat} {source : σ} {outcome : Outcome}
    (finished : finetune settings data maxSteps e source = .ok outcome) :
    ∃ log, (finetuneBy (fun program => logged (evaluate? program data)) settings data maxSteps e
        source).run [] = .ok (outcome, log) ∧
      (log = [] ∨ ∃ program d,
        (e.lift settings.perturbationScale source).1.1.compile settings.compile = .ok program ∧
          Logs program data (e.lift settings.perturbationScale source).1.2 d log ∧
          conclude settings data e (e.lift settings.perturbationScale source).1.1 d =
            .ok outcome) := by
  rw [← finetuneBy_evaluate?] at finished
  rcases finetuneBy_cases settings data maxSteps e source with
    ⟨outcome', -, ended⟩ | ⟨fault, failed⟩ | ⟨program, compiled, runs⟩
  · rw [ended] at finished
    cases finished
    exact ⟨[], by rw [ended]; rfl, .inl rfl⟩
  · rw [failed] at finished
    cases finished
  · rw [runs, descendBy_evaluate?] at finished
    obtain ⟨d, descended, concluded⟩ := bind_eq_ok_iff.mp finished
    change conclude settings data e _ d = .ok outcome at concluded
    obtain ⟨log, run_eq, logs⟩ := exists_log_of_descend descended []
    refine ⟨log, ?_, .inr ⟨program, d, compiled, logs, concluded⟩⟩
    rw [runs, StateT.run_bind, run_eq]
    change (conclude settings data e _ d).map (fun outcome => (outcome, log)) = _
    rw [concluded]
    rfl

/-- The best entry of a complete log is put back. -/
structure PutsBestBack (settings : Settings) (data : Dataset) (e lifted : Expr Float)
    (initial : List Float) (log : List Evaluation) (outcome : Outcome) : Prop where
  evaluated : ∃ program, lifted.compile settings.compile = .ok program ∧
    ∀ v ∈ log, evaluate? program data v.params = .ok v.found
  starts : ∃ v, log.head? = some v ∧ v.params = initial
  best : ∃ k params loss, IsFirstBest log k params loss ∧
    writeBack settings data e lifted log.length params = .ok outcome ∧
      (outcome.status = .tuned →
        (lifted.insertParams params).sanitize settings.sanitize = .ok outcome.expr)

theorem expr_of_writeBack {lifted : Expr Float} {steps : Nat} {params : List Float}
    {outcome : Outcome} (written : writeBack settings data e lifted steps params = .ok outcome)
    (tuned : outcome.status = .tuned) :
    (lifted.insertParams params).sanitize settings.sanitize = .ok outcome.expr := by
  rw [writeBack] at written
  cases repaired : (lifted.insertParams params).sanitize settings.sanitize with
  | error fault =>
      rw [repaired] at written
      cases written
      cases tuned
  | ok repaired_expr =>
      rw [repaired] at written
      obtain ⟨before, -, written⟩ := bind_eq_ok_iff.mp written
      obtain ⟨after, -, written⟩ := bind_eq_ok_iff.mp written
      split at written <;> cases written
      · rfl
      · cases tuned

theorem Logs.putsBestBack {program : Program Float} {lifted : Expr Float} {initial : List Float}
    {d : Descent} {log : List Evaluation} {outcome : Outcome}
    (logs : Logs program data initial d log)
    (compiled : lifted.compile settings.compile = .ok program)
    (concluded : conclude settings data e lifted d = .ok outcome) (nonempty : log ≠ [])
    (found : ∀ v ∈ log, v.found ≠ none) :
    PutsBestBack settings data e lifted initial log outcome := by
  have unfailed : d.failed = false := by
    by_contra failed
    obtain ⟨v, member, missing⟩ := logs.failed (by simpa using failed)
    exact found v member missing
  obtain ⟨first, rest, rfl⟩ := List.exists_cons_of_ne_nil nonempty
  obtain ⟨k, best, best_eq, first_best⟩ := logs.exists_isFirstBest unfailed nonempty
  rw [conclude_eq_writeBack unfailed best_eq, logs.steps_eq] at concluded
  exact {
    evaluated := ⟨program, compiled, logs.evaluated⟩
    starts := ⟨first, rfl, logs.starts first rfl⟩
    best := ⟨k, best.params, best.loss, first_best, concluded, expr_of_writeBack concluded⟩ }

end Outcome

section Late

variable {settings : Settings}

/-- `descend` where time is up at the checks that are said to be late, those of a number of steps
done. -/
def descendUntil (late : Nat → Bool) (settings : Settings) (program : Program Float)
    (data : Dataset) : (steps done : Nat) → Lbfgs.State Float → (params : List Float) →
      (lastLoss : Float) → Except Error Descent
  | 0, _, _, _, _ => return ⟨[], false⟩
  | steps + 1, done, state, params, lastLoss =>
    if late done then return ⟨[], false⟩
    else do
      match ← evaluate? program data params with
      | none => return ⟨[], true⟩
      | some (loss, gradient) =>
        if (loss - lastLoss).abs < settings.lbfgs.toleranceChange then
          return ⟨[⟨loss, params⟩], false⟩
        else
          match state.step settings.lbfgs params gradient with
          | (_, _, .converged) => return ⟨[⟨loss, params⟩], false⟩
          | (state, next, .moved) =>
            let rest ← descendUntil late settings program data steps (done + 1) state next loss
            return rest.after ⟨loss, params⟩

/-- Runs that agree on whether time is up, and after one step, agree before it. -/
theorem descendUntil_succ {late : Nat → Bool} {program : Program Float} {data : Dataset}
    {steps done allowed : Nat}
    (in_time : late done = Deadline.expired ⟨.finetune, settings.timeoutMs⟩)
    (same : ∀ state params lastLoss,
      descendUntil late settings program data steps (done + 1) state params lastLoss =
        descend settings program data allowed state params lastLoss)
    (state : Lbfgs.State Float) (params : List Float) (lastLoss : Float) :
    descendUntil late settings program data (steps + 1) done state params lastLoss =
      descend settings program data (allowed + 1) state params lastLoss := by
  rw [descendUntil, descend, in_time]
  refine congrArg (ite _ _) (bind_congr fun found? => ?_)
  rcases found? with - | ⟨loss, gradient⟩
  · rfl
  · refine congrArg (ite _ _) ?_
    rcases state.step settings.lbfgs params gradient with ⟨next_state, next, moved | converged⟩
    · exact congrArg (· >>= fun rest : Descent => pure (rest.after ⟨loss, params⟩))
        (same next_state next loss)
    · rfl

/-- A run that time ends is one that may take fewer steps. -/
theorem exists_allowed (late : Nat → Bool) (timed : settings.timeoutMs ≠ 0) (steps done : Nat) :
    ∃ allowed ≤ steps, ∀ program data state params lastLoss,
      descendUntil late settings program data steps done state params lastLoss =
        descend settings program data allowed state params lastLoss := by
  have in_time : Deadline.expired ⟨.finetune, settings.timeoutMs⟩ = false := by
    simpa [Deadline.expired] using timed
  induction steps generalizing done with
  | zero => exact ⟨0, Nat.le_refl 0, fun _ _ _ _ _ => rfl⟩
  | succ steps ih =>
      cases is_late : late done with
      | true =>
          refine ⟨0, Nat.zero_le _, fun program data state params lastLoss => ?_⟩
          rw [descendUntil, if_pos is_late, descend]
      | false =>
          obtain ⟨allowed, allowed_le, same⟩ := ih (done + 1)
          exact ⟨allowed + 1, Nat.succ_le_succ allowed_le, fun program data =>
            descendUntil_succ (is_late.trans in_time.symm) (same program data)⟩

end Late

/-- An optimization with logged evaluations has the same outcome, and if its log has an entry and
each has a finite loss and gradient, the coefficients of the first with the least loss are put back.
That is so however many steps are allowed, so also if time is up before. -/
theorem best_written_back {σ : Type} [WordSource σ] {settings : Settings} {data : Dataset}
    {maxSteps : Nat} {e : Expr Float} {source : σ} {outcome : Outcome}
    (finished : finetune settings data maxSteps e source = .ok outcome) :
    (∃ log, (finetuneBy (fun program => logged (evaluate? program data)) settings data maxSteps e
        source).run [] = .ok (outcome, log) ∧
      (log ≠ [] → (∀ v ∈ log, v.found ≠ none) →
        PutsBestBack settings data e (e.lift settings.perturbationScale source).1.1
          (e.lift settings.perturbationScale source).1.2 log outcome)) ∧
      ∀ late, settings.timeoutMs ≠ 0 → ∃ allowed ≤ maxSteps, ∀ program state params lastLoss,
        descendUntil late settings program data maxSteps 0 state params lastLoss =
          descend settings program data allowed state params lastLoss := by
  constructor
  · obtain ⟨log, run_eq, empty | ⟨program, d, compiled, logs, concluded⟩⟩ :=
      exists_log_of_finetune finished
    · exact ⟨log, run_eq, fun nonempty => absurd empty nonempty⟩
    · exact ⟨log, run_eq, logs.putsBestBack compiled concluded⟩
  · intro late timed
    obtain ⟨allowed, allowed_le, same⟩ := exists_allowed late timed maxSteps 0
    exact ⟨allowed, allowed_le, fun program => same program data⟩

/-- The line `5.0*x_0`, more than the samples rise. -/
def steeperLine : Expr Float := ⟨#[.const 5, .var 0, .nary .mul [0, 1]], 2⟩

/-- Settings with steps that are too long by half. -/
def overshooting : Settings := ({ learningRate := 2.5 } : Config).finetuneSettings 1

/-- A run that leaves its best iterate again. -/
theorem steeperLine_written_back :
    ∃ outcome log, finetune overshooting Refinement.lineSamples 3 steeperLine
        (ChaCha.Generator.ofSeed 7 0) = .ok outcome ∧
      outcome.status = .tuned ∧ outcome.steps = 3 ∧
      log.map Evaluation.params = [[5], [2.5], [1.25]] ∧ (∀ v ∈ log, v.found ≠ none) ∧
      PutsBestBack overshooting Refinement.lineSamples steeperLine
        ⟨#[.param 0, .var 0, .nary .mul [0, 1]], 2⟩ [5] log outcome := by
  have summary_eq : ((finetuneBy (fun program => logged (evaluate? program Refinement.lineSamples))
      overshooting Refinement.lineSamples 3 steeperLine
      (ChaCha.Generator.ofSeed 7 0)).run []).toOption.map (fun (o, log) =>
        (o.status, o.steps, log.map Evaluation.params, log.all fun v => v.found.isSome)) =
      some (.tuned, 3, [[5], [2.5], [1.25]], true) := by decide +kernel
  have status_eq : (finetune overshooting Refinement.lineSamples 3 steeperLine
      (ChaCha.Generator.ofSeed 7 0)).toOption.map Outcome.status = some .tuned := by decide +kernel
  obtain ⟨outcome, finished, tuned⟩ := exists_of_map_toOption status_eq
  obtain ⟨⟨log, run_eq, puts_back⟩, -⟩ := best_written_back finished
  have lift_eq : (steeperLine.lift overshooting.perturbationScale
      (ChaCha.Generator.ofSeed 7 0)).1 =
        (⟨#[.param 0, .var 0, .nary .mul [0, 1]], 2⟩, [5]) := by decide +kernel
  rw [lift_eq] at puts_back
  rw [run_eq] at summary_eq
  obtain ⟨-, steps_eq, params_eq, found⟩ : outcome.status = .tuned ∧ outcome.steps = 3 ∧
      log.map Evaluation.params = [[5], [2.5], [1.25]] ∧ (log.all fun v => v.found.isSome) = true :=
    by simpa only [Except.toOption, Option.map_some, Option.some.injEq, Prod.mk.injEq]
      using summary_eq
  have found : ∀ v ∈ log, v.found ≠ none := by
    simpa [Option.isSome_iff_ne_none] using found
  have nonempty : log ≠ [] := by
    rintro rfl
    cases params_eq
  exact ⟨outcome, log, finished, tuned, steps_eq, params_eq, found, puts_back nonempty found⟩

end Finetune
end FormulaFit
