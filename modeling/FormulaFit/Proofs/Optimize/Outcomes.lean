import FormulaFit.Proofs.Optimize.Finetuning
import FormulaFit.Proofs.Rewriting.Repair

/-!
# Every optimization has an outcome

Lifting makes as many coefficients as it gives values, and no step of the minimiser changes their
number, so a run of the optimizer reads no coefficient that is not there and ends.  Its best iterate
supplies every coefficient, so the formula that is put back has none.  Hence an optimization has an
outcome, whatever becomes of its numbers, if and only if the offsets that it needs can be drawn and
the history that it needs fits.
-/

namespace FormulaFit

section Success

variable {ε β γ : Type} {P : β → Prop} {Q : γ → Prop}

/-- The computation succeeds, with a result that has a property. -/
def Yields (result : Except ε β) (P : β → Prop) : Prop := ∃ b, result = .ok b ∧ P b

theorem Yields.bind {first : Except ε β} {next : β → Except ε γ} (yields : Yields first P)
    (later : ∀ b, P b → Yields (next b) Q) : Yields (first >>= next) Q := by
  obtain ⟨b, rfl, holds⟩ := yields
  exact later b holds

theorem yields_mapM {items : List β} {f : β → Except ε γ} (each : ∀ b ∈ items, Yields (f b) Q) :
    Yields (items.mapM f) fun results => ∀ c ∈ results, Q c := by
  induction items with
  | nil => exact ⟨[], rfl, by simp⟩
  | cons head items ih =>
      obtain ⟨first, later⟩ := List.forall_mem_cons.mp each
      rw [List.mapM_cons]
      exact first.bind fun c holds => (ih later).bind fun cs rest =>
        ⟨_, rfl, List.forall_mem_cons.mpr ⟨holds, rest⟩⟩

/-- If the computation fails, then not by a crash. -/
def CrashFree (result : Except Error β) : Prop := ∀ e, result = .error e → e.isCrash = false

theorem CrashFree.ok (b : β) : CrashFree (.ok b) := fun _ failed => by cases failed

theorem CrashFree.error {e : Error} (caught : e.isCrash = false) :
    CrashFree (.error e : Except Error β) := fun _ failed => by
  cases failed
  exact caught

theorem CrashFree.bind {first : Except Error β} {next : β → Except Error γ}
    (safe : CrashFree first) (later : ∀ b, first = .ok b → CrashFree (next b)) :
    CrashFree (first >>= next) := by
  cases first with
  | error e => exact .error (safe e rfl)
  | ok b => exact later b rfl

theorem CrashFree.exists_absorb {result : Except Error β} (safe : CrashFree result) :
    ∃ b?, Error.absorb result = .ok b? := by
  cases result with
  | ok b => exact ⟨some b, rfl⟩
  | error e => exact ⟨none, by simp [Error.absorb, safe e rfl]⟩

end Success

/-- A scan that takes an item or stays where it is ends at its start or at one of the items. -/
theorem foldl_eq_start_or_mem {β γ : Type} {choose : γ → β → γ} (view : β → γ)
    (chooses : ∀ best b, choose best b = view b ∨ choose best b = best) (start : γ)
    (items : List β) :
    items.foldl choose start = start ∨ ∃ b ∈ items, items.foldl choose start = view b := by
  induction items generalizing start with
  | nil => exact .inl rfl
  | cons head items ih =>
      rw [List.foldl_cons]
      rcases ih (choose start head) with same | ⟨b, later, taken⟩
      · rw [same]
        exact (chooses start head).symm.imp_right fun taken => ⟨head, List.mem_cons_self, taken⟩
      · exact .inr ⟨b, List.mem_cons_of_mem head later, taken⟩

namespace Program

variable {α : Type} [Scalar α] {p : Program α} {x : Matrix α} {params : Array α}

omit [Scalar α] in
theorem crashFree_checkInputs (p : Program α) (x : Matrix α) (params : Array α) :
    CrashFree (p.checkInputs x params) := by
  rw [checkInputs]
  split
  · exact .error rfl
  · split
    · exact .error rfl
    · exact .ok ()

theorem exists_addRow {count : α} {sums : Sums α} {sample : Array α × α}
    (fits : p.Fits sample.1 params) (nonempty : 0 < p.instrs.size)
    (size_eq : sums.buffer.size = p.instrs.size) :
    ∃ next, p.addRow params count sums sample = .ok next ∧
      next.buffer.size = p.instrs.size := by
  have last_lt : p.instrs.size - 1 < (p.rowSlots sample.1 params).size := by
    rw [size_rowSlots]
    exact Nat.sub_one_lt (Nat.ne_of_gt nonempty)
  rw [addRow, forward_eq_rowSlots fits size_eq]
  simp only [bind, Except.bind, output, fetch_eq_getD last_lt 0]
  exact ⟨_, rfl, size_rowSlots p sample.1 params⟩

theorem crashFree_lossAndGradient {targets : List α} (nonempty : 0 < p.instrs.size)
    (fits : params.size = p.paramCount → p.featureCount ≤ x.cols →
      ∀ row ∈ x.rowList, p.Fits row params) :
    CrashFree (p.lossAndGradient x targets params) := by
  rw [lossAndGradient]
  refine (crashFree_checkInputs p x params).bind fun _ checked => ?_
  obtain ⟨supplied, wide⟩ := checkInputs_eq_ok_iff.mp checked
  have row_fits := fits supplied wide
  split
  · exact .error rfl
  · let start : Sums α := ⟨0, Array.replicate p.paramCount 0, p.freshSlots⟩
    have start_size : start.buffer.size = p.instrs.size := by simp [start, freshSlots]
    have progress : ∀ i sample (sums : Sums α), (x.rowList.zip targets)[i]? = some sample →
        sums.buffer.size = p.instrs.size →
          ∃ next, p.addRow params (Scalar.ofNat x.rows) sums sample = .ok next ∧
            next.buffer.size = p.instrs.size := fun i sample sums found =>
      exists_addRow (row_fits _ (List.of_mem_zip (List.mem_of_getElem? found)).1) nonempty
    obtain ⟨sums, folded⟩ :=
      foldlM_exists (fun _ (sums : Sums α) => sums.buffer.size = p.instrs.size) start_size progress
    change CrashFree (List.foldlM _ start _ >>= _)
    rw [folded]
    exact .ok _

end Program

namespace Expr

section Lifting

variable {α : Type} {e : Expr α}

theorem Valid.parametrized_valid (valid : e.Valid) {ids : List NodeId}
    (lifted_valid : (e.parametrize ids).Valid) : Valid ⟨e.parametrized ids, e.root⟩ := by
  have ordered : (e.parametrized ids).Ordered := valid.ordered_parametrized ids
  have root_lt : e.root < (e.parametrized ids).size := e.size_parametrized ids ▸ valid.root_lt
  have unfold_eq := e.unfold_parametrize ids
  exact {
    root_lt := root_lt
    child_lt := fun found => ordered _ _ found
    operands_ne_nil := fun {j op args} found => by
      rcases (e.getElem?_parametrized ids j).2 _ found with found | ⟨k, -, same⟩
      · exact valid.operands_ne_nil found
      · cases same
    depth_le := by
      rw [depth_eq ordered root_lt, ← unfold_eq, ← depth_eq lifted_valid.ordered
        lifted_valid.root_lt]
      exact lifted_valid.depth_le }

theorem Valid.param_of_parametrize (valid : e.Valid) {ids : List NodeId}
    (lifted_valid : (e.parametrize ids).Valid) {i : UInt64}
    (reaches : (e.parametrize ids).Reaches (.param i)) :
    e.Reaches (.param i) ∨ ∃ k < ids.length, i = UInt64.ofNat k := by
  let replaced : Expr α := ⟨e.parametrized ids, e.root⟩
  have kept {j : NodeId} {n : Node α NodeId} (found : replaced.nodes[j]? = some n) :=
    (e.getElem?_parametrized ids j).2 n found
  have unfold_eq : (e.parametrize ids).unfold = replaced.unfold := e.unfold_parametrize ids
  have replaced_valid : replaced.Valid := valid.parametrized_valid lifted_valid
  -- What is reachable was reachable before, since a coefficient has no children.
  have reachable {j : NodeId} (reachable : replaced.Reachable j) : e.Reachable j := by
    induction reachable with
    | root => exact .root
    | child _ found is_child ih =>
        rcases kept found with found | ⟨k, -, rfl⟩
        · exact .child ih found is_child
        · cases is_child
  have member := reaches.head_mem_heads lifted_valid.ordered
  rw [unfold_eq] at member
  obtain ⟨n, ⟨j, reachable_j, found⟩, head_eq⟩ := replaced_valid.exists_reaches_of_mem_heads member
  cases n <;> cases head_eq
  rcases kept found with found | ⟨k, k_lt, same⟩
  · exact .inl ⟨j, reachable reachable_j, found⟩
  · cases same
    exact .inr ⟨k, k_lt, rfl⟩

theorem Valid.not_reaches_insertParams (valid : e.Valid) {params : List α}
    (supplied : ∀ i, e.Reaches (.param i) → i.toNat < params.length) (i : UInt64) :
    ¬(e.insertParams params).Reaches (.param i) := by
  intro reaches
  rw [insertParams_eq] at reaches
  have member := reaches.head_mem_heads (Tree.ordered_store _)
  rw [Tree.unfold_store] at member
  have supplied : ∀ j, .param j ∈ e.unfold.heads → j.toNat < params.length := fun j named => by
    obtain ⟨n, reaches, head_eq⟩ := valid.exists_reaches_of_mem_heads named
    cases n <;> cases head_eq
    exact supplied j reaches
  generalize e.unfold = t at member supplied
  induction t using Tree.induction with
  | step n ih =>
      simp only [Tree.heads_mk, List.mem_cons, List.mem_flatMap] at supplied
      by_cases is_param : ∃ j, n = .param j
      · obtain ⟨j, rfl⟩ := is_param
        have found := List.getElem?_eq_getElem (supplied j (.inl rfl))
        rw [Tree.inserted_param found, Tree.heads_mk] at member
        cases List.mem_singleton.mp member
      · rw [Tree.inserted_mk (not_exists.mp is_param), Tree.heads_mk, Node.head_map,
          Node.children_map] at member
        rcases List.mem_cons.mp member with same | below
        · cases n <;> cases same
          exact is_param ⟨i, rfl⟩
        · obtain ⟨u, is_image, below⟩ := List.mem_flatMap.mp below
          obtain ⟨t, is_child, rfl⟩ := List.mem_map.mp is_image
          exact ih t is_child below fun j named => supplied j (.inr ⟨t, is_child, named⟩)

end Lifting

theorem canLift_of_isDrawable {scale : Float} (drawable : Random.isDrawable (-scale) scale = true)
    (e : Expr Float) : e.canLift scale = true := by
  rw [canLift, canPerturb, drawable, Bool.or_true]

/-- A valid formula without coefficients. -/
structure ParamFree (e : Expr Float) : Prop where
  valid : e.Valid
  param_free : ∀ i, ¬e.Reaches (.param i)

/-- A sanitized formula without coefficients: everything in it is known. -/
structure Determined (e : Expr Float) : Prop extends Sanitized e where
  param_free : ∀ i, ¬e.Reaches (.param i)

theorem Determined.paramFree {e : Expr Float} (determined : e.Determined) : e.ParamFree :=
  ⟨determined.valid, determined.param_free⟩

theorem accepted_of_sanitize {policy : SanitizePolicy} {e s : Expr Float}
    (repaired : e.sanitize policy = .ok s) : e.validate = .ok () ∧ ¬0 < e.paramCount := by
  rw [sanitize] at repaired
  cases checked : e.validate with
  | error fault =>
      rw [checked] at repaired
      cases repaired
  | ok _ =>
      obtain ⟨_, -, unbound⟩ := bind_eq_ok_iff.mp repaired
      refine ⟨rfl, fun counted => ?_⟩
      rw [if_pos counted] at unbound
      cases unbound

/-- What is sanitized is determined if the last coefficient, which cannot be counted, is not
read. -/
theorem determined_of_sanitize {policy : SanitizePolicy} {e s : Expr Float}
    (repaired : e.sanitize policy = .ok s) (finite : policy.placeholder.isFinite = true)
    (countable : ¬e.Reaches (.param Program.uncountable)) : s.Determined := by
  obtain ⟨accepted, uncounted⟩ := accepted_of_sanitize repaired
  have valid := (validate_eq_ok_iff e).mp accepted
  have param_free : ∀ i, ¬e.Reaches (.param i) := fun i reaches =>
    countable (valid.eq_uncountable uncounted reaches ▸ reaches)
  exact ⟨sanitized_of_sanitize repaired,
    (repairs_of_sanitize policy accepted param_free finite repaired).param_free⟩

theorem crashFree_compile (options : CompileOptions Float) (e : Expr Float) :
    CrashFree (e.compile options) := by
  rw [compile]
  cases Program.compile? options e with
  | ok p => exact .ok p
  | error fault => cases fault <;> exact .error rfl

variable {σ : Type} [WordSource σ] {e : Expr Float}

theorem ParamFree.crashFree_loss (free : e.ParamFree) {scale : Float} {source : σ}
    {options : CompileOptions Float} {p : Program Float}
    (compiled : (e.lift scale source).1.1.compile options = .ok p) (x : Matrix Float)
    {params : List Float} (length_eq : params.length = (e.lift scale source).1.2.length)
    (targets : List Float) : CrashFree (p.lossAndGradient x targets params.toArray) := by
  have lowers := lowers_of_compile compiled
  have lifted_valid := valid_of_compile compiled
  refine Program.crashFree_lossAndGradient lowers.nonempty fun supplied wide row member => ?_
  rw [lowers.featureCount_eq] at wide
  refine lowers.fits lifted_valid (fun uncounted => ?_) (x.size_of_mem_rowList member ▸ wide)
    supplied
  rcases free.valid.param_of_parametrize lifted_valid uncounted with reaches | ⟨k, k_lt, same⟩
  · exact free.param_free _ reaches
  · -- The coefficients are counted in a word, so the last one is not the greatest word.
    have size_eq : params.toArray.size = params.length := rfl
    have values_length : (e.lift scale source).1.2.length =
        (e.liftable.map Prod.fst).length := by
      rw [lift, length_perturb, List.length_map, List.length_map]
    have counted := (Program.countParams p.instrs).toNat_lt
    rw [← lowers.paramCount_eq, ← supplied, size_eq, length_eq, values_length] at counted
    have k_eq := congrArg UInt64.toNat same
    rw [UInt64.toNat_ofNat_of_lt' (Nat.lt_trans k_lt counted)] at k_eq
    have greatest : Program.uncountable.toNat = 2 ^ 64 - 1 := rfl
    omega

end Expr

namespace Lbfgs

variable {α : Type} [Scalar α]

omit [Scalar α] in
theorem length_combineWith (f : α → α → α) (xs ys : List α) :
    (combineWith f xs ys).length = xs.length := by
  induction xs generalizing ys with
  | nil => cases ys <;> rfl
  | cons x xs ih =>
      cases ys with
      | nil => rfl
      | cons y ys => rw [combineWith, List.length_cons, List.length_cons, ih]

/-- A step moves the coefficients and keeps their number. -/
theorem length_step (settings : Settings α) (state : State α) (params gradient : List α) :
    (state.step settings params gradient).2.1.length = params.length := by
  unfold State.step
  split
  · rfl
  · dsimp only
    split
    · rfl
    · split <;> exact length_combineWith _ _ _

end Lbfgs

namespace Finetune

variable {settings : Settings} {data : Dataset}

theorem exists_evaluate? {program : Program Float} {params : List Float}
    (safe : CrashFree (program.lossAndGradient data.features data.targets params.toArray)) :
    ∃ evaluated?, evaluate? program data params = .ok evaluated? := by
  obtain ⟨found?, absorbed⟩ := safe.exists_absorb
  rw [evaluate?, absorbed]
  cases found? with
  | none => exact ⟨none, rfl⟩
  | some found => exact ⟨_, rfl⟩

theorem exists_descend {program : Program Float} {count : Nat}
    (safe : ∀ params : List Float, params.length = count →
      CrashFree (program.lossAndGradient data.features data.targets params.toArray))
    (steps : Nat) (state : Lbfgs.State Float) {params : List Float}
    (length_eq : params.length = count) (lastLoss : Float) :
    ∃ d, descend settings program data steps state params lastLoss = .ok d := by
  induction steps generalizing state params lastLoss with
  | zero => exact ⟨_, rfl⟩
  | succ steps ih =>
      rw [descend]
      split
      · exact ⟨_, rfl⟩
      · obtain ⟨evaluated?, evaluated⟩ := exists_evaluate? (safe params length_eq)
        rw [evaluated]
        cases evaluated? with
        | none => exact ⟨_, rfl⟩
        | some found =>
            simp only [bind, Except.bind]
            split
            · exact ⟨_, rfl⟩
            · have next_length := Lbfgs.length_step settings.lbfgs state params found.2
              split
              · exact ⟨_, rfl⟩
              · rename_i next_state next moved
                rw [moved] at next_length
                obtain ⟨rest, descended⟩ := ih next_state (next_length.trans length_eq) found.1
                exact ⟨_, by rw [descended]; rfl⟩

theorem mem_of_best? {d : Descent} {i : Iterate} (best : d.best? = some i) : i ∈ d.iterates := by
  have scanned : d.best? = none ∨ ∃ b ∈ d.iterates, d.best? = some b := by
    refine foldl_eq_start_or_mem some (fun best next => ?_) none d.iterates
    cases best with
    | none => exact .inl rfl
    | some b =>
        simp only
        split
        · exact .inl rfl
        · exact .inr rfl
  rcases scanned with none_chosen | ⟨b, member, chosen⟩
  · cases best.symm.trans none_chosen
  · rwa [Option.some.inj (best.symm.trans chosen)]

variable {e : Expr Float}

theorem exists_trainingError (free : e.ParamFree) (options : CompileOptions Float) :
    ∃ v, trainingError options data e = .ok v := by
  have safe : CrashFree (do
      let program ← e.compile options
      program.evaluate data.features #[]) := by
    refine (Expr.crashFree_compile options e).bind fun p compiled => ?_
    have lowers := Expr.lowers_of_compile compiled
    rw [Program.evaluate]
    refine (Program.crashFree_checkInputs p data.features #[]).bind fun _ checked => ?_
    obtain ⟨supplied, wide⟩ := Program.checkInputs_eq_ok_iff.mp checked
    rw [lowers.featureCount_eq] at wide
    rw [Program.evaluateRows_eq (fun row member => lowers.fits free.valid (free.param_free _)
      (data.features.size_of_mem_rowList member ▸ wide) supplied) (by simp [Program.freshSlots])
      lowers.nonempty]
    exact .ok _
  obtain ⟨predictions?, absorbed⟩ := safe.exists_absorb
  rw [trainingError, absorbed]
  exact ⟨_, rfl⟩

theorem exists_conclude (free : e.ParamFree)
    (finite : settings.sanitize.placeholder.isFinite = true) {lifted : Expr Float} {d : Descent}
    (supplied : ∀ i ∈ d.iterates, ∀ j, ¬(lifted.insertParams i.params).Reaches (.param j)) :
    ∃ outcome, conclude settings data e lifted d = .ok outcome := by
  rw [conclude]
  split
  · exact ⟨_, rfl⟩
  · cases best : d.best? with
    | none => exact ⟨_, rfl⟩
    | some iterate =>
        simp only
        split
        · exact ⟨_, rfl⟩
        · rename_i tuned repaired
          have determined :=
            Expr.determined_of_sanitize repaired finite (supplied iterate (mem_of_best? best) _)
          obtain ⟨before, trained⟩ := exists_trainingError free settings.compile
          obtain ⟨after, retrained⟩ := exists_trainingError determined.paramFree settings.compile
          rw [trained, retrained]
          simp only [bind, Except.bind]
          split <;> exact ⟨_, rfl⟩

section Run

variable {σ : Type} [WordSource σ] {source : σ} {program : Program Float}

theorem not_reaches_insertParams_of_descend
    (compiled : (e.lift settings.perturbationScale source).1.1.compile settings.compile =
      .ok program) {maxSteps : Nat} {state : Lbfgs.State Float} {params : List Float}
    {lastLoss : Float} {d : Descent}
    (descended : descend settings program data maxSteps state params lastLoss = .ok d) :
    ∀ i ∈ d.iterates, ∀ j, ¬((e.lift settings.perturbationScale source).1.1.insertParams
      i.params).Reaches (.param j) := by
  intro i member
  have lifted_valid := Expr.valid_of_compile compiled
  obtain ⟨result, evaluated⟩ := exists_loss_of_descend descended i member
  obtain ⟨-, row, buffer, slots, run⟩ := program.exists_forward_of_lossAndGradient evaluated
  exact lifted_valid.not_reaches_insertParams fun j reaches =>
    (Expr.lowers_of_compile compiled).lt_of_reaches_param lifted_valid reaches run

theorem exists_run (data : Dataset) (free : e.ParamFree)
    (finite : settings.sanitize.placeholder.isFinite = true)
    (compiled : (e.lift settings.perturbationScale source).1.1.compile settings.compile =
      .ok program) (maxSteps : Nat) :
    ∃ outcome, (do
      let d ← descend settings program data maxSteps .start
        (e.lift settings.perturbationScale source).1.2 Scalar.posInf
      conclude settings data e (e.lift settings.perturbationScale source).1.1 d) =
        .ok outcome := by
  have safe : ∀ params : List Float,
      params.length = (e.lift settings.perturbationScale source).1.2.length →
        CrashFree (program.lossAndGradient data.features data.targets params.toArray) :=
    fun params length_eq => free.crashFree_loss compiled data.features length_eq data.targets
  obtain ⟨d, descended⟩ := exists_descend safe maxSteps .start rfl Scalar.posInf
  obtain ⟨outcome, concluded⟩ :=
    exists_conclude free finite (not_reaches_insertParams_of_descend compiled descended)
  exact ⟨outcome, bind_eq_ok_iff.mpr ⟨d, descended, concluded⟩⟩

end Run

theorem affordable_of_settings
    (drawable : Random.isDrawable (-settings.perturbationScale) settings.perturbationScale = true)
    (room : settings.lbfgs.hasRoom = true) : Affordable settings e :=
  ⟨fun _ => Expr.canLift_of_isDrawable drawable e, fun _ => room⟩

variable {σ : Type} [WordSource σ]

/-- An optimization has an outcome if and only if its settings are affordable. -/
theorem exists_finetune_iff (valid : e.Valid)
    (countable : ¬e.Reaches (.param Program.uncountable))
    (finite : settings.sanitize.placeholder.isFinite = true) (maxSteps : Nat) (source : σ) :
    (∃ outcome, finetune settings data maxSteps e source = .ok outcome) ↔
      Affordable settings e := by
  have attempts := attempts_finetune settings data maxSteps e source
  generalize finetune settings data maxSteps e source = result at attempts
  cases attempts with
  | stays stays drawable => exact iff_of_true ⟨_, rfl⟩ ⟨drawable, fun runs => absurd runs stays⟩
  | fails unaffordable =>
      refine iff_of_false (fun succeeds => ?_) unaffordable
      obtain ⟨_, failed⟩ := succeeds
      cases failed
  | runs lifts compiled affordable =>
      have free : e.ParamFree := ⟨valid, fun i reaches =>
        countable (valid.eq_uncountable lifts.2 reaches ▸ reaches)⟩
      exact iff_of_true (exists_run data free finite compiled maxSteps) affordable

/-- An optimization leaves the formula as it was or gives a determined one. -/
theorem expr_eq_or_determined_of_finetune {maxSteps : Nat} {source : σ} {outcome : Outcome}
    (finite : settings.sanitize.placeholder.isFinite = true)
    (finished : finetune settings data maxSteps e source = .ok outcome) :
    outcome.expr = e ∨ outcome.expr.Determined := by
  rcases steps_eq_zero_or_exists_descend finished with
    ⟨-, -, kept⟩ | ⟨-, program, initial, d, compiled, descended, concluded⟩
  · exact .inl kept
  · obtain ⟨-, ⟨-, kept⟩ | ⟨-, ⟨i, best, repaired⟩, -⟩⟩ := conclude_cases concluded
    · exact .inl kept
    · exact .inr (Expr.determined_of_sanitize repaired finite
        (not_reaches_insertParams_of_descend compiled descended i (mem_of_best? best) _))

theorem yields_finetune (determined : e.Determined)
    (finite : settings.sanitize.placeholder.isFinite = true) (affordable : Affordable settings e)
    (maxSteps : Nat) (source : σ) :
    Yields (finetune settings data maxSteps e source) fun outcome => outcome.expr.Determined := by
  obtain ⟨outcome, finished⟩ := (exists_finetune_iff determined.valid (determined.param_free _)
    finite maxSteps source).mpr affordable
  refine ⟨outcome, finished, ?_⟩
  obtain kept | tuned := expr_eq_or_determined_of_finetune finite finished
  · exact kept.symm ▸ determined
  · exact tuned

end Finetune
end FormulaFit
