import FormulaFit.Proofs.Rewriting.Sanitization
import FormulaFit.Refine.Predict

/-!
# Prediction

A literal is not compiled, and a formula without features is evaluated once; both give what the
compiled program gives for every row.  Hence a sanitized formula can be evaluated if and only if it
is closed, except when time is up, and then only a literal can.
-/

namespace FormulaFit

namespace Program

variable {α : Type} [Scalar α]

theorem rowSlots_eq_of_isInputIndependent {p : Program α}
    (independent : p.isInputIndependent = true) (row row' params : Array α) :
    p.rowSlots row' params = p.rowSlots row params := by
  have featureless : ∀ instr ∈ p.instrs.toList, instr.readsFeature = false := by
    intro instr member
    rw [isInputIndependent, Bool.not_eq_true', Array.any_eq_false'] at independent
    exact Bool.eq_false_iff.mpr (independent instr (Array.mem_toList_iff.mp member))
  have same : p.rowSlots row' params = (p.rowSlots row params).map id :=
    Instr.fill_map rfl fun instr member slots => by
      have featureless_instr := featureless instr member
      cases instr with
      | var i => cases featureless_instr
      | binary op a b => cases op <;> rfl
      | nary op args => simp [Instr.atSlots, Instr.map, Instr.result]
      | _ => rfl
  rw [same, Array.map_id]

end Program

namespace Expr

variable {options : CompileOptions Float} {e : Expr Float} {x : Matrix Float}

theorem constant?_eq_some_iff {v : Float} :
    e.constant? = some v ↔ e.nodes[e.root]? = some (.const v) ∧ v.isFinite = true := by
  rw [constant?, rootNode?, Option.bind_eq_some_iff]
  constructor
  · rintro ⟨n, found, is_literal⟩
    cases n with
    | const w =>
        simp only [Node.literal?] at is_literal
        split at is_literal <;> cases is_literal
        rename_i finite
        exact ⟨found, finite⟩
    | _ => cases is_literal
  · rintro ⟨found, finite⟩
    exact ⟨_, found, if_pos finite⟩

theorem Reaches.eq_const {v : Float} (literal : e.constant? = some v) {n : Node Float NodeId}
    (reaches : e.Reaches n) : n = .const v := by
  obtain ⟨found, -⟩ := constant?_eq_some_iff.mp literal
  obtain ⟨i, reachable, at_i⟩ := reaches
  have only {i : NodeId} (reachable : e.Reachable i) : i = e.root := by
    induction reachable with
    | root => rfl
    | child _ at_parent member ih =>
        rw [ih, found] at at_parent
        cases at_parent
        cases member
  rw [only reachable, found] at at_i
  exact (Option.some.inj at_i).symm

theorem valid_of_compile {p : Program Float} (compiled : e.compile options = .ok p) : e.Valid :=
  (Program.compile?_eq_ok_iff.mp (compile_eq_ok_iff.mp compiled)).1

theorem lowers_of_compile {p : Program Float} (compiled : e.compile options = .ok p) :
    Program.Lowers options e p :=
  Program.lowers_of_compile? (compile_eq_ok_iff.mp compiled)

/-- The short ways to a prediction give what the program gives for every row. -/
theorem evaluate_eq_of_compile {p : Program Float} {values : List Float}
    (compiled : e.compile options = .ok p) (wide : options.featureCount ≤ x.cols)
    (rows_pos : 0 < x.rows) (evaluated : p.evaluate x #[] = .ok values) :
    e.evaluate options x = .ok values := by
  have valid := valid_of_compile compiled
  have lowers := lowers_of_compile compiled
  obtain ⟨supplied, row, buffer, slots, finished⟩ := Program.exists_forward_of_evaluate rows_pos
    evaluated
  have countable : ¬e.Reaches (.param Program.uncountable) := fun uncounted =>
    lowers.forward_ne_ok valid uncounted supplied row buffer slots finished
  have values_eq := lowers.evaluate_eq valid countable wide supplied
  rw [evaluated] at values_eq
  obtain rfl := Except.ok.inj values_eq
  cases literal : e.constant? with
  | some v =>
      have value_eq : ∀ row ∈ x.rowList, (p.rowSlots row #[]).getD (p.instrs.size - 1) 0 = v := by
        intro row member
        have fits := lowers.fits valid countable (x.size_of_mem_rowList member ▸ wide) supplied
        have value_eq := lowers.value?_unfold valid fits
        rw [unfold_eq_treeAt, valid.treeAt_eq (constant?_eq_some_iff.mp literal).1,
          Tree.value?_mk] at value_eq
        exact (Option.some.inj value_eq).symm
      rw [evaluate, literal, List.map_congr_left value_eq, List.map_const', Matrix.length_rowList]
  | none =>
      cases independent : p.isInputIndependent with
      | true =>
          obtain ⟨zeros, zeros_eq⟩ :
              ∃ zeros, (Matrix.replicate 1 x.cols (0 : Float)).rowList = [zeros] := ⟨_, rfl⟩
          have once := lowers.evaluate_eq (x := Matrix.replicate 1 x.cols 0) valid countable wide
            supplied
          rw [zeros_eq, List.map_singleton] at once
          have same : ∀ row ∈ x.rowList, (p.rowSlots row #[]).getD (p.instrs.size - 1) 0 =
              (p.rowSlots zeros #[]).getD (p.instrs.size - 1) 0 := fun row _ => by
            rw [Program.rowSlots_eq_of_isInputIndependent independent zeros row]
          rw [evaluate, literal, compiled, List.map_congr_left same, List.map_const',
            Matrix.length_rowList]
          simp only [bind, Except.bind, independent, if_true, once]
          rfl
      | false =>
          rw [evaluate, literal, compiled]
          simpa [bind, Except.bind, independent] using evaluated

theorem crashOnly_evaluate {p : Program Float} (compiled : e.compile options = .ok p)
    (wide : options.featureCount ≤ x.cols) (param_free : p.paramCount = 0) :
    CrashOnly (e.evaluate options x) := by
  have featureCount_eq := (lowers_of_compile compiled).featureCount_eq
  have crash {y : Matrix Float} (wide : options.featureCount ≤ y.cols) :
      CrashOnly (p.evaluate y #[]) := by
    have checked : p.checkInputs y #[] = .ok () :=
      Program.checkInputs_eq_ok_iff.mpr ⟨param_free.symm, featureCount_eq ▸ wide⟩
    rw [Program.evaluate, checked]
    exact p.crashOnly_evaluateRows _ _ _
  cases literal : e.constant? with
  | some v =>
      rw [evaluate, literal]
      exact .ok _
  | none =>
      rw [evaluate, literal, compiled]
      cases independent : p.isInputIndependent with
      | true =>
          simp only [bind, Except.bind, independent, if_true]
          refine CrashOnly.bind (crash wide) fun values evaluated => ?_
          cases values with
          | cons v values => exact .ok _
          | nil =>
              rw [Program.evaluate, bind_eq_ok_iff] at evaluated
              obtain ⟨_, -, evaluated⟩ := evaluated
              cases Program.length_of_evaluateRows evaluated
      | false =>
          simp only [bind, Except.bind, independent]
          exact crash wide

theorem Sanitized.isClosed_of_evaluate (sanitized : e.Sanitized) (rows_pos : 0 < x.rows)
    {values : List Float} (evaluated : e.evaluate options x = .ok values) :
    e.IsClosed options.featureCount := by
  cases literal : e.constant? with
  | some v =>
      intro n member
      rw [Reaches.eq_const literal (sanitized.valid.mem_reachable_iff.mp member)]
      trivial
  | none =>
      rw [evaluate, literal] at evaluated
      obtain ⟨p, compiled, evaluated⟩ := bind_eq_ok_iff.mp evaluated
      have lowers := lowers_of_compile compiled
      have unexpired := (Program.compile?_eq_ok_iff.mp (compile_eq_ok_iff.mp compiled)).2.1
      obtain ⟨row, buffer, slots, finished⟩ :
          ∃ row buffer slots, p.forward row #[] buffer = .ok slots := by
        split at evaluated
        · obtain ⟨values, once, -⟩ := bind_eq_ok_iff.mp evaluated
          exact (Program.exists_forward_of_evaluate Nat.one_pos once).2
        · exact (Program.exists_forward_of_evaluate rows_pos evaluated).2
      refine sanitized.isClosed_iff.mpr ⟨?_, fun i reaches => ?_⟩
      · exact (Program.exists_compile?_iff sanitized.valid unexpired).mp
          ⟨p, compile_eq_ok_iff.mp compiled⟩
      · exact Nat.not_lt_zero _ (lowers.lt_of_reaches_param sanitized.valid reaches finished)

theorem Sanitized.exists_program (sanitized : e.Sanitized)
    (closed : e.IsClosed options.featureCount) (unexpired : options.timeoutMs ≠ 0)
    (wide : options.featureCount ≤ x.cols) :
    ∃ p values, e.compile options = .ok p ∧ p.evaluate x #[] = .ok values := by
  obtain ⟨native, param_free⟩ := sanitized.isClosed_iff.mp closed
  obtain ⟨p, compiled⟩ := (Program.exists_compile?_iff sanitized.valid unexpired).mpr native
  have lowers := Program.lowers_of_compile? compiled
  have supplied : (#[] : Array Float).size = p.paramCount :=
    (lowers.paramCount_eq_zero fun i reaches => absurd reaches (param_free i)).symm
  exact ⟨p, _, compile_eq_ok_iff.mpr compiled,
    lowers.evaluate_eq sanitized.valid (param_free _) wide supplied⟩

/-- A sanitized formula that is closed can be evaluated in time. -/
theorem Sanitized.exists_evaluate (sanitized : e.Sanitized)
    (closed : e.IsClosed options.featureCount) (unexpired : options.timeoutMs ≠ 0)
    (wide : options.featureCount ≤ x.cols) (rows_pos : 0 < x.rows) :
    ∃ values, e.evaluate options x = .ok values := by
  obtain ⟨p, values, compiled, evaluated⟩ := sanitized.exists_program closed unexpired wide
  exact ⟨values, evaluate_eq_of_compile compiled wide rows_pos evaluated⟩

end Expr

end FormulaFit
