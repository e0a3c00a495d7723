import FormulaFit.Proofs.Program.ReverseMode

/-!
# Loss and gradient in exact arithmetic

Over an ordered field, a compiled program has as its loss the mean squared residual of its values
and as its gradient the derivatives of this mean that forward differentiation of the tree gives.
-/

namespace FormulaFit

namespace Matrix

variable {α β : Type}

/-- The matrix with a function applied to every entry. -/
def map (f : α → β) (x : Matrix α) : Matrix β :=
  ⟨x.rows, x.cols, x.entries.map f, by simpa using x.size_entries⟩

theorem rowList_map (f : α → β) (x : Matrix α) :
    (x.map f).rowList = x.rowList.map (Array.map f) := by
  simp [rowList, row, map, Function.comp_def]

end Matrix

namespace Program

variable {K : Type} [Field K] [LinearOrder K] [Elementary K]

section Samples

variable {p : Program (Exact K)} {placeholder : K} {params : Array K}

/-- Samples add their squared residuals and the derivatives of those. -/
theorem exists_foldlM_addRow_eq (proper : p.IsProper)
    (placeholder_eq : p.divisionPlaceholder = Exact.real placeholder)
    (nonempty : 0 < p.instrs.size) (n : K) {samples : List (Array K × K)}
    (fits : ∀ sample ∈ samples, p.Fits (sample.1.map Exact.real) (params.map Exact.real)) (loss : K)
    {gradient : Array K} (gradient_size : gradient.size = params.size) {buffer : Array (Exact K)}
    (buffer_size : buffer.size = p.instrs.size) :
    ∃ (next : Array K) (slots : Array (Exact K)),
      (samples.map (Prod.map (Array.map Exact.real) Exact.real)).foldlM
          (p.addRow (params.map Exact.real) (Exact.real n))
          ⟨Exact.real loss, gradient.map Exact.real, buffer⟩ =
        .ok ⟨Exact.real (loss + (samples.map fun (row, y) =>
          (p.rowValue placeholder params row - y) ^ 2).sum), next.map Exact.real, slots⟩ ∧
        next.size = params.size ∧ ∀ i, i < params.size → next.getD i 0 = gradient.getD i 0 +
          (samples.map fun (row, y) => 2 * (p.rowValue placeholder params row - y) *
            p.rowTangent placeholder params i row / n).sum := by
  induction samples generalizing loss gradient buffer with
  | nil => exact ⟨gradient, buffer, by simp [pure, Except.pure], gradient_size, by simp⟩
  | cons sample samples ih =>
      obtain ⟨row, y⟩ := sample
      obtain ⟨between, added, between_size, between_getD⟩ := exists_addRow_eq proper placeholder_eq
        nonempty n (fits (row, y) (by simp)) y loss gradient_size buffer_size
      obtain ⟨next, slots, folded, next_size, next_getD⟩ := ih
        (fun sample member => fits sample (List.mem_cons_of_mem _ member))
        (loss + (p.rowValue placeholder params row - y) ^ 2) between_size
        (size_rowSlots p (row.map Exact.real) (params.map Exact.real))
      refine ⟨next, slots, ?_, next_size, fun i i_lt => ?_⟩
      · rw [List.map_cons, List.foldlM_cons, Prod.map, added]
        simp only [bind, Except.bind, folded, List.map_cons, List.sum_cons, add_assoc]
      · rw [next_getD i i_lt, between_getD i i_lt, List.map_cons, List.sum_cons, add_assoc]

end Samples

omit [Field K] [LinearOrder K] [Elementary K] in
theorem toList_map_real [Zero K] {entries : Array K} {n : Nat} (size_eq : entries.size = n)
    {g : Nat → K} (entry : ∀ i, i < n → entries.getD i 0 = g i) :
    (entries.map Exact.real).toList = (List.range n).map fun i => Exact.real (g i) := by
  subst size_eq
  apply List.ext_getElem
  · simp
  · intro i i_lt _
    have i_lt : i < entries.size := by simpa using i_lt
    have entry_eq := entry i i_lt
    rw [Array.getD_eq_getD_getElem?, Array.getElem?_eq_getElem i_lt, Option.getD_some] at entry_eq
    simp only [Array.getElem_toList, Array.getElem_map, List.getElem_map, List.getElem_range,
      entry_eq]

namespace Lowers

variable {featureCount timeoutMs : Nat} {placeholder : K} {e : Expr (Exact K)}
  {p : Program (Exact K)}

theorem dual?_eq (lowers : Lowers ⟨featureCount, timeoutMs, Exact.real placeholder⟩ e p)
    (valid : e.Valid) (countable : ¬e.Reaches (.param uncountable)) {row params : Array K}
    (wide : featureCount ≤ row.size) (supplied : params.size = p.paramCount) (i : Nat) :
    e.unfold.dual? placeholder row params i =
      some ⟨p.rowValue placeholder params row, p.rowTangent placeholder params i row⟩ := by
  rw [lowers.dual?_unfold valid countable placeholder wide supplied i,
    getD_dualSlots (lowers.isProper valid) lowers.placeholder_eq]
  rfl

theorem evaluate_map_real (lowers : Lowers ⟨featureCount, timeoutMs, Exact.real placeholder⟩ e p)
    (valid : e.Valid) (countable : ¬e.Reaches (.param uncountable)) {x : Matrix K}
    {params : Array K} (wide : featureCount ≤ x.cols) (supplied : params.size = p.paramCount) :
    p.evaluate (x.map Exact.real) (params.map Exact.real) =
      .ok (x.rowList.map fun row => Exact.real (p.rowValue placeholder params row)) := by
  rw [lowers.evaluate_eq valid countable (by simpa [Matrix.map] using wide)
    (by simpa using supplied), Matrix.rowList_map, List.map_map]
  refine congrArg Except.ok (List.map_congr_left fun row _ => ?_)
  exact getD_rowSlots (lowers.isProper valid) lowers.placeholder_eq 0 _

theorem lossAndGradient_map_real
    (lowers : Lowers ⟨featureCount, timeoutMs, Exact.real placeholder⟩ e p) (valid : e.Valid)
    (countable : ¬e.Reaches (.param uncountable)) {x : Matrix K} {targets : List K}
    {params : Array K} (rows_pos : 0 < x.rows) (wide : featureCount ≤ x.cols)
    (length_eq : targets.length = x.rows) (supplied : params.size = p.paramCount) :
    p.lossAndGradient (x.map Exact.real) (targets.map Exact.real) (params.map Exact.real) = .ok
      (Exact.real (((x.rowList.zip targets).map fun (row, y) =>
        (p.rowValue placeholder params row - y) ^ 2).sum / x.rows),
        (List.range p.paramCount).map fun i => Exact.real (((x.rowList.zip targets).map
          fun (row, y) => 2 * (p.rowValue placeholder params row - y) *
            p.rowTangent placeholder params i row).sum / x.rows)) := by
  have proper := lowers.isProper valid
  have row_fits : ∀ sample ∈ x.rowList.zip targets,
      p.Fits (sample.1.map Exact.real) (params.map Exact.real) := fun sample member =>
    lowers.fits valid countable
      (by simpa [x.size_of_mem_rowList (List.of_mem_zip member).1] using wide)
      (by simpa using supplied)
  have gradient_size : (Array.replicate p.paramCount (0 : K)).size = params.size := by
    simpa using supplied.symm
  have buffer_size : p.freshSlots.size = p.instrs.size := by simp [freshSlots]
  obtain ⟨next, slots, folded, next_size, next_getD⟩ := exists_foldlM_addRow_eq proper
    lowers.placeholder_eq lowers.nonempty (x.rows : K) row_fits 0 gradient_size buffer_size
  have checked : p.checkInputs (x.map Exact.real) (params.map Exact.real) = .ok () :=
    checkInputs_eq_ok_iff.mpr ⟨by simpa using supplied, lowers.featureCount_eq ▸ wide⟩
  have samples_eq : (x.map Exact.real).rowList.zip (targets.map Exact.real) =
      (x.rowList.zip targets).map (Prod.map (Array.map Exact.real) Exact.real) := by
    rw [Matrix.rowList_map, List.zip_map]
  have matched : ((targets.map Exact.real).length ≠ (x.map Exact.real).rows ||
      (targets.map Exact.real).isEmpty) = false := by
    have targets_pos : targets ≠ [] := by
      rintro rfl
      exact absurd length_eq (Nat.ne_of_lt rows_pos)
    simp [Matrix.map, length_eq, targets_pos]
  have gradient_eq : (next.map Exact.real).toList = (List.range p.paramCount).map fun i =>
      Exact.real (((x.rowList.zip targets).map fun (row, y) =>
        2 * (p.rowValue placeholder params row - y) *
          p.rowTangent placeholder params i row).sum / (x.rows : K)) := by
    refine toList_map_real (next_size.trans supplied) fun i i_lt => ?_
    have start_zero : (Array.replicate p.paramCount (0 : K)).getD i 0 = 0 := by
      rw [Array.getD_eq_getD_getElem?, Array.getElem?_replicate]
      split <;> rfl
    rw [next_getD i (supplied ▸ i_lt), start_zero, zero_add]
    simp only [div_eq_mul_inv, List.sum_map_mul_right]
  rw [lossAndGradient, checked]
  simp only [bind, Except.bind, matched, Bool.false_eq_true, if_false, pure, Except.pure,
    samples_eq]
  have start_eq : (⟨0, Array.replicate p.paramCount 0, p.freshSlots⟩ : Sums (Exact K)) =
      ⟨Exact.real 0, (Array.replicate p.paramCount (0 : K)).map Exact.real, p.freshSlots⟩ := by
    simp [Exact.zero_eq]
  rw [start_eq, show Scalar.ofNat (x.map Exact.real).rows = Exact.real (x.rows : K) from rfl,
    folded]
  simp only [Exact.real_div_real, zero_add, gradient_eq]

end Lowers

/-- Loss and gradient in exact arithmetic: the loss is the mean squared residual of the values
against the targets, and every entry of the gradient is the derivative of this mean by forward
differentiation of the tree.  Only if the formula reads the one coefficient that cannot be counted,
neither the values nor the loss exist. -/
theorem lossAndGradient_eq_forward (featureCount timeoutMs : Nat) (placeholder : K)
    (e : Expr (Exact K)) (p : Program (Exact K))
    (compiled : compile? ⟨featureCount, timeoutMs, Exact.real placeholder⟩ e = .ok p)
    (x : Matrix K) (targets : List K) (params : Array K) (rows_pos : 0 < x.rows)
    (wide : featureCount ≤ x.cols) (length_eq : targets.length = x.rows)
    (supplied : params.size = p.paramCount) :
    (¬e.Reaches (.param uncountable) → ∃ (value : Array K → K) (tangent : Nat → Array K → K),
      (∀ row ∈ x.rowList, ∀ i,
        e.unfold.dual? placeholder row params i = some ⟨value row, tangent i row⟩) ∧
      p.evaluate (x.map Exact.real) (params.map Exact.real) =
        .ok (x.rowList.map fun row => Exact.real (value row)) ∧
      p.lossAndGradient (x.map Exact.real) (targets.map Exact.real) (params.map Exact.real) = .ok
        (Exact.real
            (((x.rowList.zip targets).map fun (row, y) => (value row - y) ^ 2).sum / x.rows),
          (List.range p.paramCount).map fun i => Exact.real
            (((x.rowList.zip targets).map fun (row, y) =>
              2 * (value row - y) * tangent i row).sum / x.rows))) ∧
    (e.Reaches (.param uncountable) →
      (∀ values, p.evaluate (x.map Exact.real) (params.map Exact.real) ≠ .ok values) ∧
      ∀ result, p.lossAndGradient (x.map Exact.real) (targets.map Exact.real)
        (params.map Exact.real) ≠ .ok result) := by
  have valid := (compile?_eq_ok_iff.mp compiled).1
  have lowers := lowers_of_compile? compiled
  constructor
  · intro countable
    refine ⟨p.rowValue placeholder params, p.rowTangent placeholder params,
      fun row member i => lowers.dual?_eq valid countable
        (x.size_of_mem_rowList member ▸ wide) supplied i,
      lowers.evaluate_map_real valid countable wide supplied,
      lowers.lossAndGradient_map_real valid countable rows_pos wide length_eq supplied⟩
  · intro uncounted
    have supplied_real : (params.map Exact.real).size = p.paramCount := by simpa using supplied
    have stuck := lowers.forward_ne_ok valid uncounted supplied_real
    obtain ⟨row, rows, rows_eq⟩ : ∃ row rows, x.rowList = row :: rows :=
      List.exists_cons_of_length_pos (by simpa using rows_pos)
    obtain ⟨y, ys, targets_eq⟩ : ∃ y ys, targets = y :: ys :=
      List.exists_cons_of_length_pos (length_eq ▸ rows_pos)
    constructor
    · intro values evaluated
      simp only [evaluate, bind_eq_ok_iff, Matrix.rowList_map, rows_eq, List.map_cons,
        evaluateRows] at evaluated
      obtain ⟨-, -, slots, finished, -⟩ := evaluated
      exact stuck _ _ _ finished
    · intro result differentiated
      simp only [lossAndGradient, bind_eq_ok_iff] at differentiated
      obtain ⟨-, -, differentiated⟩ := differentiated
      split at differentiated
      · cases differentiated
      · simp only [bind_eq_ok_iff, Matrix.rowList_map, rows_eq, targets_eq, List.map_cons,
          List.zip_cons_cons, List.foldlM_cons, addRow] at differentiated
        obtain ⟨sums, ⟨next, ⟨slots, finished, -⟩, -⟩, -⟩ := differentiated
        exact stuck _ _ _ finished

/-- A trivial interpretation of the elementary functions over the rationals. -/
@[reducible]
def trivialElementary : Elementary ℚ where
  sin _ := 0
  cos _ := 1
  exp _ := 1
  log _ := 0
  sqrt a := a
  pow _ _ := 1
  isIntegral a := a.den == 1

/-- The square of a feature times a coefficient, with the feature in one slot. -/
def scaledSquare : Expr (Exact ℚ) := ⟨#[.var 0, .param 0, .nary .mul [0, 1, 0]], 2⟩

/-- The program of `scaledSquare`. -/
def scaledSquareProgram : Program (Exact ℚ) :=
  ⟨#[.var 0, .param 0, .nary .mul [0, 1, 0]], 1, 1, Exact.real 1⟩

theorem scaledSquare_lossAndGradient :
    letI := trivialElementary
    compile? ⟨1, 5, Exact.real 1⟩ scaledSquare = .ok scaledSquareProgram ∧
      ∃ result, scaledSquareProgram.lossAndGradient
        ((⟨2, 1, #[3, 2], rfl⟩ : Matrix ℚ).map Exact.real) ([1, 5].map Exact.real)
        (#[2].map Exact.real) = .ok result := by
  let := trivialElementary
  have compiled : compile? ⟨1, 5, Exact.real 1⟩ scaledSquare = .ok scaledSquareProgram := rfl
  have countable : ¬scaledSquare.Reaches (.param uncountable) := fun reaches => by
    simpa [scaledSquare, uncountable] using reaches.mem
  obtain ⟨value, tangent, -, -, result_eq⟩ := (lossAndGradient_eq_forward 1 5 1 scaledSquare
    scaledSquareProgram compiled ⟨2, 1, #[3, 2], rfl⟩ [1, 5] #[2] (by decide) (by decide) rfl
    rfl).1 countable
  exact ⟨compiled, _, result_eq⟩

/-- A feature times the one coefficient that cannot be counted. -/
def uncountedLine : Expr (Exact ℚ) := ⟨#[.param uncountable, .var 0, .nary .mul [0, 1]], 2⟩

/-- The program of `uncountedLine`. -/
def uncountedLineProgram : Program (Exact ℚ) :=
  ⟨#[.param uncountable.toNat, .var 0, .nary .mul [0, 1]], 1, 0, Exact.real 1⟩

/-- Where the feature is zero, so is the product for any value of the coefficient; still there is no
loss, as the coefficient is read and none is supplied. -/
theorem uncountedLine_lossless :
    letI := trivialElementary
    compile? ⟨1, 5, Exact.real 1⟩ uncountedLine = .ok uncountedLineProgram ∧
      uncountedLineProgram.paramCount = 0 ∧
      ∀ result, uncountedLineProgram.lossAndGradient
        ((⟨1, 1, #[0], rfl⟩ : Matrix ℚ).map Exact.real) ([1].map Exact.real)
        ((#[] : Array ℚ).map Exact.real) ≠ .ok result := by
  let := trivialElementary
  have crashes : uncountedLineProgram.lossAndGradient
      ((⟨1, 1, #[0], rfl⟩ : Matrix ℚ).map Exact.real) ([1].map Exact.real)
      ((#[] : Array ℚ).map Exact.real) = .error (.indexOutside (2 ^ 64 - 1) 0) := by
    decide +kernel
  refine ⟨rfl, rfl, fun result same => ?_⟩
  cases crashes.symm.trans same

end Program

end FormulaFit
