import FormulaFit.Proofs.Optimize.Outcomes
import FormulaFit.Proofs.Program.Shortcuts
import FormulaFit.Refine.Model

/-!
# Predictions row by row

A model has one reading of rows: a fault that does not depend on the data, or a function from rows
to values that looks only at the features of its formula.  Predictions apply it to every row on its
own.  Hence rows that agree on those features are predicted alike in any two matrices, wherever they
stand and whatever surrounds them.
-/

namespace FormulaFit

open Program (uncountable)

namespace Program

variable {α : Type} [Scalar α] {e : Expr α}

theorem Draft.extend?_congr {node : Node α NodeId × Bool} {width width' : Nat}
    (inside : node.2 = true → ∀ i, node.1 = .var i → i.toNat < width ∧ i.toNat < width')
    (draft : Draft α) : draft.extend? width node = draft.extend? width' node := by
  obtain ⟨n, marked⟩ := node
  cases marked with
  | false => rfl
  | true =>
      have lowered : Instr.ofNode? width (n.map fun c => draft.slotOf.getD c 0) =
          Instr.ofNode? width' (n.map fun c => draft.slotOf.getD c 0) :=
        Instr.ofNode?_congr fun i node_eq => by
          cases n <;> cases node_eq
          exact inside rfl i rfl
      rw [extend?, extend?, lowered]

/-- The width of the data changes nothing in a program but its width, as long as the data have the
features of the formula. -/
theorem compile?_widen (valid : e.Valid) (options : CompileOptions α) (width : Nat)
    (inside : ∀ i, e.Reaches (.var i) → i.toNat < options.featureCount ∧ i.toNat < width) :
    compile? { options with featureCount := width } e =
      (compile? options e).map fun p => { p with featureCount := width } := by
  have folded : (e.nodes.toList.zip e.marks.toList).foldlM (Draft.extend? width) ⟨#[], #[]⟩ =
      (e.nodes.toList.zip e.marks.toList).foldlM (Draft.extend? options.featureCount)
        ⟨#[], #[]⟩ := by
    refine foldlM_congr (fun node member draft => Draft.extend?_congr (fun marked i node_eq => ?_)
      draft) _
    obtain ⟨k, found⟩ := List.getElem?_of_mem member
    obtain ⟨at_k, marked_eq⟩ := (getElem?_zip_marks valid).mp found
    exact (inside i ⟨k, valid.isMarked_iff.mp (marked_eq ▸ marked), node_eq ▸ at_k⟩).symm
  rw [compile?, compile?, (Expr.validate_eq_ok_iff e).mpr valid]
  by_cases expired : options.timeoutMs = 0
  · simp [expired, Except.mapError, Except.map, bind, Except.bind, throw, throwThe,
      MonadExceptOf.throw]
  · simp only [expired, folded, Except.mapError, bind, Except.bind, if_false, pure, Except.pure]
    cases (e.nodes.toList.zip e.marks.toList).foldlM (Draft.extend? options.featureCount)
      ⟨#[], #[]⟩ <;> rfl

end Program

namespace Expr

variable {e : Expr Float}

/-- Why there are no values, or the value at a row. -/
abbrev Reading := Except Error (Array Float → Float)

/-- What a formula promises of its reading of rows. -/
structure Reading.IsLocal (e : Expr Float) (reading : Reading) : Prop where
  /-- Rows that agree on the features are read alike. -/
  read_eq : ∀ value, reading = .ok value → ∀ row row' : Array Float,
    (∀ i, e.Reaches (.var i) → row[i.toNat]? = row'[i.toNat]?) → value row = value row'
  /-- Only at the coefficient that is not counted it crashes. -/
  reaches_of_crash : ∀ fault, reading = .error fault → fault.isCrash = true →
    e.Reaches (.param uncountable)

theorem Reading.isLocal_error {fault : Error}
    (reaches : fault.isCrash = true → e.Reaches (.param uncountable)) :
    Reading.IsLocal e (.error fault) where
  read_eq _ absent := by cases absent
  reaches_of_crash _ same crashes := by
    cases same
    exact reaches crashes

theorem Valid.evaluate_eq_tree (valid : e.Valid) (options : CompileOptions Float)
    (unexpired : options.timeoutMs ≠ 0) {x : Matrix Float} (rows : x.rows ≠ 0)
    (inside : ∀ i, e.Reaches (.var i) → i.toNat < options.featureCount ∧ i.toNat < x.cols) :
    e.evaluate { options with featureCount := x.cols } x = e.compile options >>= fun _ =>
      if e.paramCount = 0 then x.rowList.mapM (e.unfold.valueAt options.divisionPlaceholder · #[])
      else .error (.data (.paramCount e.paramCount.toNat 0)) := by
  have agrees := (@Valid.evaluate_eq_evaluateCompiled_iff { options with featureCount := x.cols } e
    x valid unexpired (Nat.le_refl x.cols)).mpr fun ⟨rowless, _⟩ => rows rowless
  have widened := Program.compile?_widen valid options x.cols inside
  rw [agrees, evaluateCompiled]
  cases compiled : Program.compile? options e with
  | error fault =>
      rw [compile, compile, widened, compiled]
      rfl
  | ok p =>
      rw [compiled] at widened
      have compiled_wide := compile_eq_ok_iff.mpr widened
      have values := evaluate_program_eq compiled_wide (Nat.le_refl x.cols)
      rw [compiled_wide, compile_eq_ok_iff.mpr compiled]
      exact values

/-- One local reading gives the values at the rows of all matrices that have rows and the
features. -/
theorem Valid.exists_reading (valid : e.Valid) (options : CompileOptions Float)
    (unexpired : options.timeoutMs ≠ 0) :
    ∃ reading : Reading, reading.IsLocal e ∧ ∀ x : Matrix Float, x.rows ≠ 0 →
      (∀ i, e.Reaches (.var i) → i.toNat < x.cols) →
      e.evaluate { options with featureCount := x.cols } x =
        reading.map fun value => x.rowList.map value := by
  -- Every feature is there at the greatest width, where only faults of the formula remain.
  have evaluated {x : Matrix Float} (rows : x.rows ≠ 0)
      (wide : ∀ i, e.Reaches (.var i) → i.toNat < x.cols) :
      e.evaluate { options with featureCount := x.cols } x =
        e.compile { options with featureCount := UInt64.size } >>= fun _ =>
          if e.paramCount = 0 then
            x.rowList.mapM (e.unfold.valueAt options.divisionPlaceholder · #[])
          else .error (.data (.paramCount e.paramCount.toNat 0)) :=
    valid.evaluate_eq_tree { options with featureCount := UInt64.size } unexpired rows
      fun i reaches => ⟨i.toNat_lt, wide i reaches⟩
  cases compiled : e.compile { options with featureCount := UInt64.size } with
  | error fault =>
      have reported : fault.isCrash = false := crashFree_compile _ e fault compiled
      refine ⟨.error fault, Reading.isLocal_error fun crashes => ?_, fun x rows wide => ?_⟩
      · rw [reported] at crashes
        cases crashes
      · rw [evaluated rows wide, compiled]
        rfl
  | ok p =>
      by_cases none_counted : e.paramCount = 0
      · by_cases uncounted : e.Reaches (.param uncountable)
        · refine ⟨.error (.indexOutside uncountable.toNat 0),
            Reading.isLocal_error fun _ => uncounted, fun x rows wide => ?_⟩
          rw [evaluated rows wide, compiled]
          simp only [bind, Except.bind, none_counted, if_true, uncounted.valueAt_eq_error valid]
          exact mapM_const (Matrix.rowList_ne_nil rows) _
        · refine ⟨.ok fun row => (e.unfold.value? options.divisionPlaceholder row #[]).getD 0,
            ⟨?_, fun _ absent => by cases absent⟩, fun x rows wide => ?_⟩
          · rintro value ⟨⟩ row row' agree
            refine congrArg (Option.getD · 0) (Tree.value?_congr fun i member => ?_)
            exact agree i (valid.reaches_var_of_mem_heads member)
          · have widened := Program.compile?_widen valid
              { options with featureCount := UInt64.size } x.cols
              fun i reaches => ⟨i.toNat_lt, wide i reaches⟩
            rw [compile_eq_ok_iff.mp compiled] at widened
            rw [evaluated rows wide, compiled]
            simp only [bind, Except.bind, none_counted, if_true]
            refine mapM_eq_ok fun row member => ?_
            obtain ⟨v, value_eq, valueAt_eq⟩ :=
              exists_valueAt_eq_ok (compile_eq_ok_iff.mpr widened) none_counted uncounted
                (Nat.le_of_eq (Matrix.size_of_mem_rowList member).symm)
            rw [valueAt_eq, value_eq, Option.getD_some]
      · refine ⟨.error (.data (.paramCount e.paramCount.toNat 0)),
          Reading.isLocal_error (fun crashes => by cases crashes), fun x rows wide => ?_⟩
        rw [evaluated rows wide, compiled]
        simp only [bind, Except.bind, none_counted, if_false]
        rfl

end Expr

namespace Matrix

variable {α : Type} {x : Matrix α} {i k : Nat}

theorem getElem?_rowList (above : i < x.rows) : x.rowList[i]? = some (x.row i) := by
  simp [rowList, above]

theorem getElem?_row (above : i < x.rows) (inside : k < x.cols) : (x.row i)[k]? = x.get? i k := by
  have row_end_le := x.row_end_le above
  rw [row, get?, Array.getElem?_extract, if_pos (by omega), if_pos (by simp [above, inside])]

end Matrix

namespace Model

variable {m : Model} {x y : Matrix Float}

/-- The inputs have no missing values and all features of the formula. -/
structure Suits (m : Model) (x : Matrix Float) : Prop where
  complete : x.hasMissing = false
  wide : ∀ k ∈ m.expr.features, k.toNat < x.cols

/-- Two rows agree on the features of the formula. -/
def AgreesAt (m : Model) (x y : Matrix Float) (i j : Nat) : Prop :=
  ∀ k ∈ m.expr.features, x.get? i k.toNat = y.get? j k.toNat

theorem exists_reading (valid : m.expr.Valid) :
    ∃ reading : Expr.Reading, reading.IsLocal m.expr ∧ ∀ x, m.Suits x → x.rows ≠ 0 →
      m.predict x = reading.map fun value => x.rowList.map value := by
  obtain ⟨reading, is_local, evaluated⟩ :=
    valid.exists_reading (m.compileOptions 0) (show 5000 ≠ 0 by decide)
  refine ⟨reading.mapError Expr.asNumericFault, ?_, fun x suits rows => ?_⟩
  · cases reading with
    | ok value => exact ⟨is_local.read_eq, fun _ absent => by cases absent⟩
    | error fault =>
        refine Expr.Reading.isLocal_error fun crashes => is_local.reaches_of_crash fault rfl ?_
        cases fault <;> cases crashes
        rfl
  · have completed : m.complete x = .ok x := if_neg (Bool.eq_false_iff.mp suits.complete)
    have values := evaluated x rows fun i reaches =>
      suits.wide i (valid.mem_features_iff.mpr reaches)
    rw [predict, completed]
    change (m.expr.evaluate (m.compileOptions x.cols) x).mapError Expr.asNumericFault = _
    refine (congrArg (Except.mapError Expr.asNumericFault) values).trans ?_
    cases reading <;> rfl

theorem AgreesAt.read_eq {i j : Nat} (agree : m.AgreesAt x y i j) (valid : m.expr.Valid)
    (suits : m.Suits x) (suits' : m.Suits y) (above : i < x.rows) (above' : j < y.rows)
    {reading : Expr.Reading} (is_local : reading.IsLocal m.expr) {value : Array Float → Float}
    (read : reading = .ok value) : value (x.row i) = value (y.row j) :=
  is_local.read_eq value read _ _ fun k reaches => by
    have member := valid.mem_features_iff.mpr reaches
    rw [Matrix.getElem?_row above (suits.wide k member),
      Matrix.getElem?_row above' (suits'.wide k member)]
    exact agree k member

/-- Predictions are made row by row, from the features of the formula alone: where two rows of any
two inputs agree on them, both inputs fail alike or both rows have the same prediction.  A crash can
only be that at the coefficient that is not counted.  So inputs whose rows are rows of others, in
any order and number and with any other columns, have the predictions of those rows. -/
theorem predict_rowLocal (m : Model) (x y : Matrix Float) (accepted : m.expr.validate = .ok ())
    (suits : m.Suits x) (suits' : m.Suits y) :
    (∀ i j, i < x.rows → j < y.rows → m.AgreesAt x y i j →
      (∃ fault, m.predict x = .error fault ∧ m.predict y = .error fault ∧
        (fault.isCrash = true → m.expr.Reaches (.param uncountable))) ∨
        ∃ p q v, m.predict x = .ok p ∧ m.predict y = .ok q ∧ p[i]? = some v ∧ q[j]? = some v) ∧
      ∀ pick : Nat → Nat, y.rows ≠ 0 →
        (∀ j < y.rows, pick j < x.rows ∧ m.AgreesAt x y (pick j) j) →
        m.predict y =
          (m.predict x).map fun p => (List.range y.rows).map fun j => p.getD (pick j) 0 := by
  have valid := (Expr.validate_eq_ok_iff m.expr).mp accepted
  obtain ⟨reading, is_local, predicted⟩ := exists_reading valid
  constructor
  · intro i j above above' agree
    rw [predicted x suits (by omega), predicted y suits' (by omega)]
    cases read : reading with
    | error fault => exact .inl ⟨fault, rfl, rfl, is_local.reaches_of_crash fault read⟩
    | ok value =>
        refine .inr ⟨_, _, value (x.row i), rfl, rfl, ?_, ?_⟩
        · rw [List.getElem?_map, Matrix.getElem?_rowList above, Option.map_some]
        · rw [List.getElem?_map, Matrix.getElem?_rowList above', Option.map_some,
            agree.read_eq valid suits suits' above above' is_local read]
  · intro pick rows picked
    have rows' : x.rows ≠ 0 := Nat.ne_of_gt (Nat.zero_lt_of_lt (picked 0 (by omega)).1)
    rw [predicted x suits rows', predicted y suits' rows]
    cases read : reading with
    | error fault => rfl
    | ok value =>
        refine congrArg Except.ok ?_
        dsimp only
        rw [Matrix.rowList, List.map_map]
        refine List.map_congr_left fun j member => ?_
        obtain ⟨above, agree⟩ := picked j (List.mem_range.mp member)
        rw [List.getD_eq_getElem?_getD, List.getElem?_map, Matrix.getElem?_rowList above,
          Option.map_some, Option.getD_some,
          agree.read_eq valid suits suits' above (List.mem_range.mp member) is_local read]
        rfl

/-- A model with the formula `x_0/x_2`. -/
def quotient : Model where
  expr := ⟨#[.var 0, .var 2, .binary .div 0 1], 2⟩
  trainingError := 0
  complexity := 3
  status := .untouched
  summary := { raw := 1 }
  divisionPlaceholder := 1
  imputation := none

/-- Two rows, with a column that the quotient does not use. -/
def twoRows : Matrix Float := ⟨2, 3, #[1, 9, 2, 4, 9, 0], rfl⟩

/-- The second of the rows once and the first one twice, with other columns beside. -/
def threeRows : Matrix Float := ⟨3, 4, #[4, 5, 0, 7, 1, 6, 2, 8, 1, Scalar.posInf, 2, -1], rfl⟩

theorem quotient_rowLocal :
    quotient.expr.validate = .ok () ∧ quotient.Suits twoRows ∧ quotient.Suits threeRows ∧
      quotient.predict twoRows = .ok [0.5, 1] ∧ quotient.predict threeRows = .ok [1, 0.5, 0.5] := by
  have accepted : quotient.expr.validate = .ok () := rfl
  have used : ∀ k ∈ quotient.expr.features, k = 0 ∨ k = 2 := fun k member => by
    have reaches := ((Expr.validate_eq_ok_iff _).mp accepted).mem_features_iff.mp member
    simpa [quotient] using reaches.mem
  have suits : quotient.Suits twoRows := ⟨by decide +kernel, fun k member => by
    rcases used k member with rfl | rfl <;> decide⟩
  have suits' : quotient.Suits threeRows := ⟨by decide +kernel, fun k member => by
    rcases used k member with rfl | rfl <;> decide⟩
  have predicted : quotient.predict twoRows = .ok [0.5, 1] := by decide +kernel
  have picked : ∀ j < threeRows.rows, (if j = 0 then 1 else 0) < twoRows.rows ∧
      quotient.AgreesAt twoRows threeRows (if j = 0 then 1 else 0) j := fun j above => by
    have same : ∀ j < 3, twoRows.get? (if j = 0 then 1 else 0) 0 = threeRows.get? j 0 ∧
        twoRows.get? (if j = 0 then 1 else 0) 2 = threeRows.get? j 2 := by decide
    refine ⟨by change _ < 2; split <;> decide, fun k member => ?_⟩
    rcases used k member with rfl | rfl
    · exact (same j above).1
    · exact (same j above).2
  have rows := (predict_rowLocal quotient twoRows threeRows accepted suits suits').2 _ (by decide)
    picked
  rw [predicted] at rows
  exact ⟨accepted, suits, suits', predicted, rows⟩

end Model

end FormulaFit
