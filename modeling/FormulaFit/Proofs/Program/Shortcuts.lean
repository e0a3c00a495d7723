import FormulaFit.Proofs.Arena.Layout
import FormulaFit.Proofs.Program.Coefficients

/-!
# Short ways to the values of a formula

A literal is given to every row as it is, without a program, and a formula that reads no feature is
evaluated once, at a row of zeros, and the value given to every row.  Both give what the program
gives row by row, with one exception: the row of zeros is run also where there are no rows at all,
and there it can meet the coefficient that is not counted.
-/

namespace FormulaFit

open Program (uncountable)

namespace Program.Lowers

variable {α : Type} [Scalar α] {options : CompileOptions α} {e : Expr α} {p : Program α}

theorem isInputIndependent_iff (lowers : Lowers options e p) (valid : e.Valid) :
    p.isInputIndependent = true ↔ ∀ i, ¬e.Reaches (.var i) := by
  rw [isInputIndependent, Bool.not_eq_true', Array.any_eq_false']
  constructor
  · rintro featureless i ⟨index, reachable, at_index⟩
    obtain ⟨instr, found, lowered⟩ := lowers.instr_at valid reachable at_index
    rw [Node.map, Instr.ofNode?] at lowered
    split at lowered <;> cases lowered
    exact featureless _ (Array.mem_of_getElem? found) rfl
  · intro featureless instr member reads
    obtain ⟨k, found⟩ := Array.getElem?_of_mem member
    cases instr with
    | var j =>
        obtain ⟨index, n, reachable, at_index, -, lowered⟩ := lowers.instr_of k _ found
        obtain ⟨i, node_eq, -⟩ := Instr.exists_var_of_ofNode? lowered
        have n_eq : n = .var i := by
          cases n <;> simp [Node.map] at node_eq
          rw [node_eq]
        exact featureless i ⟨index, reachable, n_eq ▸ at_index⟩
    | _ => cases reads

end Program.Lowers

/-- The ways from a formula to one value for every row. -/
inductive Route where
  /-- The literal that the formula is, given to every row. -/
  | literal (v : Float)
  /-- The value at a row of zeros, given to every row. -/
  | once (p : Program Float)
  /-- The value at each row. -/
  | eachRow (p : Program Float)

namespace Route

/-- One value is given to every row. -/
def isBroadcast : Route → Bool
  | literal _ | once _ => true
  | eachRow _ => false

/-- The values at the rows of a matrix. -/
def values (x : Matrix Float) : Route → Except Error (List Float)
  | literal v => .ok (List.replicate x.rows v)
  | once p => do
    let values ← p.evaluate (Matrix.replicate 1 x.cols 0) #[]
    return List.replicate x.rows (values.headD 0)
  | eachRow p => p.evaluate x #[]

end Route

namespace Expr

variable {options : CompileOptions Float} {e : Expr Float} {x : Matrix Float}

/-- The way that is taken, if the formula compiles or is a literal. -/
def route? (options : CompileOptions Float) (e : Expr Float) : Except Error Route :=
  match e.constant? with
  | some v => .ok (.literal v)
  | none => do
    let p ← e.compile options
    return if p.isInputIndependent then .once p else .eachRow p

/-- One value for every row, by running the program row by row. -/
def evaluateCompiled (options : CompileOptions Float) (e : Expr Float) (x : Matrix Float) :
    Except Error (List Float) := do
  let p ← e.compile options
  p.evaluate x #[]

theorem evaluate_eq_route (options : CompileOptions Float) (e : Expr Float) (x : Matrix Float) :
    e.evaluate options x = e.route? options >>= Route.values x := by
  rw [evaluate, route?]
  cases e.constant? with
  | some v => rfl
  | none =>
      cases e.compile options with
      | error fault => rfl
      | ok p =>
          cases independent : p.isInputIndependent with
          | false => simp [bind, Except.bind, pure, Except.pure, independent, Route.values]
          | true =>
              simp only [bind, Except.bind, pure, Except.pure, independent, if_true, Route.values]
              cases once : p.evaluate (Matrix.replicate 1 x.cols 0) #[] with
              | error fault => rfl
              | ok values =>
                  cases values with
                  | cons v rest => rfl
                  | nil =>
                      rw [Program.evaluate, bind_eq_ok_iff] at once
                      obtain ⟨_, -, once⟩ := once
                      cases Program.length_of_evaluateRows once

theorem Valid.isBroadcast_iff (valid : e.Valid) {route : Route}
    (taken : e.route? options = .ok route) :
    route.isBroadcast = true ↔
      (∃ v, e.nodes[e.root]? = some (.const v) ∧ v.isFinite = true) ∨ ∀ i, ¬e.Reaches (.var i) := by
  rw [route?] at taken
  cases literal : e.constant? with
  | some v =>
      rw [literal] at taken
      cases taken
      exact iff_of_true rfl (.inl ⟨v, constant?_eq_some_iff.mp literal⟩)
  | none =>
      rw [literal] at taken
      obtain ⟨p, compiled, taken⟩ := bind_eq_ok_iff.mp taken
      cases taken
      have no_literal : ¬∃ v, e.nodes[e.root]? = some (.const v) ∧ v.isFinite = true := by
        rintro ⟨v, is_literal⟩
        rw [constant?_eq_some_iff.mpr is_literal] at literal
        cases literal
      rw [or_iff_right no_literal, ← (lowers_of_compile compiled).isInputIndependent_iff valid]
      cases p.isInputIndependent <;> simp [Route.isBroadcast]

/-- A program over no coefficients, read off the tree of its formula: it wants none, and then gives
every row the value there. -/
theorem evaluate_program_eq {p : Program Float} (compiled : e.compile options = .ok p)
    (wide : options.featureCount ≤ x.cols) :
    p.evaluate x #[] =
      if e.paramCount = 0 then x.rowList.mapM (e.unfold.valueAt options.divisionPlaceholder · #[])
      else .error (.data (.paramCount e.paramCount.toNat 0)) := by
  have counted_iff : e.paramCount.toNat = 0 ↔ e.paramCount = 0 := UInt64.toNat_inj (b := 0)
  rw [(lowers_of_compile compiled).evaluate_eq_tree (valid_of_compile compiled), Tree.evaluate]
  by_cases none_counted : e.paramCount = 0
  · rw [if_pos none_counted, counted_iff.mpr none_counted]
    simp [Nat.not_lt.mpr wide]
  · have other : (#[] : Array Float).size ≠ e.paramCount.toNat := fun same =>
      none_counted (counted_iff.mp same.symm)
    rw [if_neg none_counted, if_pos other]
    rfl

theorem Valid.eq_uncountable_of_paramCount (valid : e.Valid) (none_counted : e.paramCount = 0)
    {i : UInt64} (reaches : e.Reaches (.param i)) : i = uncountable := by
  by_contra countable
  have counted := valid.paramCount_pos_iff.mpr ⟨i, reaches, countable⟩
  rw [none_counted] at counted
  exact absurd counted (by decide)

theorem Reaches.valueAt_eq_error (uncounted : e.Reaches (.param uncountable)) (valid : e.Valid)
    (placeholder : Float) (row : Array Float) :
    e.unfold.valueAt placeholder row #[] = .error (.indexOutside uncountable.toNat 0) := by
  rw [Tree.valueAt, Tree.value?_eq_none (uncounted.head_mem_heads valid.ordered) (Nat.zero_le _)]
  rfl

theorem exists_valueAt_eq_ok {p : Program Float} (compiled : e.compile options = .ok p)
    (none_counted : e.paramCount = 0) (countable : ¬e.Reaches (.param uncountable))
    {row : Array Float} (wide : options.featureCount ≤ row.size) :
    ∃ v, e.unfold.value? options.divisionPlaceholder row #[] = some v ∧
      e.unfold.valueAt options.divisionPlaceholder row #[] = .ok v := by
  have valid := valid_of_compile compiled
  have lowers := lowers_of_compile compiled
  have supplied : (#[] : Array Float).size = p.paramCount := by
    rw [lowers.paramCount_eq_toNat valid, none_counted]
    rfl
  have value_eq := lowers.value?_unfold valid (lowers.fits valid countable wide supplied)
  exact ⟨_, value_eq, by rw [Tree.valueAt, value_eq]⟩

theorem Valid.reaches_var_of_mem_heads (valid : e.Valid) {i : UInt64}
    (member : .var i ∈ e.unfold.heads) : e.Reaches (.var i) := by
  obtain ⟨n, reaches, head_eq⟩ := valid.exists_reaches_of_mem_heads member
  cases n <;> cases head_eq
  exact reaches

theorem Valid.valueAt_featureless (valid : e.Valid) (featureless : ∀ i, ¬e.Reaches (.var i))
    (placeholder : Float) (row row' : Array Float) :
    e.unfold.valueAt placeholder row #[] = e.unfold.valueAt placeholder row' #[] :=
  Tree.valueAt_congr fun i member =>
    absurd (valid.reaches_var_of_mem_heads member) (featureless i)

/-- The run at a row of zeros meets the coefficient that is not counted: the formula compiles,
without features and with that coefficient as the only one. -/
structure MissesProbe (options : CompileOptions Float) (e : Expr Float) : Prop where
  compiles : ∃ p, e.compile options = .ok p
  featureless : ∀ i, ¬e.Reaches (.var i)
  uncounted : e.Reaches (.param uncountable)
  only : ∀ i, e.Reaches (.param i) → i = uncountable

theorem Valid.evaluateCompiled_of_constant? (valid : e.Valid) (unexpired : options.timeoutMs ≠ 0)
    (wide : options.featureCount ≤ x.cols) {v : Float} (literal : e.constant? = some v) :
    e.evaluateCompiled options x = .ok (List.replicate x.rows v) := by
  obtain ⟨found, finite⟩ := constant?_eq_some_iff.mp literal
  obtain ⟨p, compiled⟩ := (Program.exists_compile?_iff valid unexpired).mpr fun n reaches => by
    rw [reaches.eq_const literal]
    change (!v.isFinite) = false
    rw [finite]
    rfl
  have none_counted : e.paramCount = 0 := by
    by_contra counted
    obtain ⟨i, reaches, -⟩ := valid.paramCount_pos_iff.mp (UInt64.pos_iff_ne_zero.mpr counted)
    cases reaches.eq_const literal
  have value_eq (row : Array Float) :
      e.unfold.valueAt options.divisionPlaceholder row #[] = .ok v := by
    rw [unfold_eq_treeAt, valid.treeAt_eq found]
    rfl
  rw [evaluateCompiled, compile_eq_ok_iff.mpr compiled]
  change p.evaluate x #[] = _
  rw [evaluate_program_eq (compile_eq_ok_iff.mpr compiled) wide, if_pos none_counted,
    mapM_eq_ok fun row _ => value_eq row, List.map_const', Matrix.length_rowList]

/-- Without features one run at a row of zeros gives what the program gives row by row, unless there
are no rows and the run at the row of zeros stops. -/
theorem values_once_eq_iff {p : Program Float} (compiled : e.compile options = .ok p)
    (wide : options.featureCount ≤ x.cols) (featureless : ∀ i, ¬e.Reaches (.var i)) :
    (Route.once p).values x = p.evaluate x #[] ↔ ¬(x.rows = 0 ∧ e.MissesProbe options) := by
  have valid := valid_of_compile compiled
  obtain ⟨zeros, zeros_eq⟩ : ∃ zeros, (Matrix.replicate 1 x.cols (0 : Float)).rowList = [zeros] :=
    ⟨_, rfl⟩
  have zeros_wide : options.featureCount ≤ zeros.size := by
    rw [Matrix.size_of_mem_rowList (zeros_eq ▸ List.mem_cons_self)]
    exact wide
  have probe := evaluate_program_eq (x := Matrix.replicate 1 x.cols 0) compiled wide
  have each_row : (x.rowList.mapM fun row => e.unfold.valueAt options.divisionPlaceholder row #[]) =
      x.rowList.mapM fun _ => e.unfold.valueAt options.divisionPlaceholder zeros #[] :=
    congrArg x.rowList.mapM (funext fun row => valid.valueAt_featureless featureless _ row zeros)
  have one_row :
      ([zeros].mapM fun row => e.unfold.valueAt options.divisionPlaceholder row #[]) =
        (e.unfold.valueAt options.divisionPlaceholder zeros #[]).map (List.replicate 1) :=
    mapM_const (List.cons_ne_nil zeros []) _
  rw [Route.values, probe, evaluate_program_eq compiled wide, zeros_eq, one_row, each_row]
  by_cases none_counted : e.paramCount = 0
  · rw [if_pos none_counted, if_pos none_counted]
    by_cases uncounted : e.Reaches (.param uncountable)
    · rw [uncounted.valueAt_eq_error valid]
      by_cases rowless : x.rows = 0
      · have misses : e.MissesProbe options := ⟨⟨p, compiled⟩, featureless, uncounted,
          fun i reaches => valid.eq_uncountable_of_paramCount none_counted reaches⟩
        rw [List.eq_nil_of_length_eq_zero (x.length_rowList.trans rowless)]
        exact iff_of_false (fun same => by cases same) fun agrees => agrees ⟨rowless, misses⟩
      · rw [mapM_const (Matrix.rowList_ne_nil rowless)]
        exact iff_of_true rfl fun ⟨none_left, _⟩ => rowless none_left
    · obtain ⟨v, -, value_eq⟩ :=
        exists_valueAt_eq_ok compiled none_counted uncounted zeros_wide
      rw [value_eq, mapM_eq_ok (g := fun _ => v) fun _ _ => rfl, List.map_const',
        Matrix.length_rowList]
      exact iff_of_true rfl fun ⟨_, misses⟩ => uncounted misses.uncounted
  · rw [if_neg none_counted, if_neg none_counted]
    obtain ⟨i, reaches, countable⟩ :=
      valid.paramCount_pos_iff.mp (UInt64.pos_iff_ne_zero.mpr none_counted)
    exact iff_of_true rfl fun ⟨_, misses⟩ => countable (misses.only i reaches)

/-- The short ways give what the program gives row by row, or fail as it fails, unless there are no
rows and the run at the row of zeros stops. -/
theorem Valid.evaluate_eq_evaluateCompiled_iff (valid : e.Valid) (unexpired : options.timeoutMs ≠ 0)
    (wide : options.featureCount ≤ x.cols) :
    e.evaluate options x = e.evaluateCompiled options x ↔
      ¬(x.rows = 0 ∧ e.MissesProbe options) := by
  rw [evaluate_eq_route, route?]
  cases literal : e.constant? with
  | some v =>
      rw [valid.evaluateCompiled_of_constant? unexpired wide literal]
      exact iff_of_true rfl fun ⟨_, misses⟩ => by cases misses.uncounted.eq_const literal
  | none =>
      rw [evaluateCompiled]
      cases compiled : e.compile options with
      | error fault =>
          refine iff_of_true rfl fun ⟨_, misses⟩ => ?_
          obtain ⟨p, compiled'⟩ := misses.compiles
          cases compiled.symm.trans compiled'
      | ok p =>
          have independent_iff := (lowers_of_compile compiled).isInputIndependent_iff valid
          by_cases independent : p.isInputIndependent = true
          · simp only [bind, Except.bind, pure, Except.pure, independent, if_true]
            exact values_once_eq_iff compiled wide (independent_iff.mp independent)
          · simp only [bind, Except.bind, pure, Except.pure, independent]
            exact iff_of_true rfl fun ⟨_, misses⟩ =>
              independent (independent_iff.mpr misses.featureless)

/-- The short ways to the values of an accepted formula, taken for a literal and where no feature is
reachable, give what the program gives row by row, or fail as it fails, exactly unless there are no
rows and the run at the row of zeros stops. -/
theorem shortcuts_agree_iff (e : Expr Float) (options : CompileOptions Float) (x : Matrix Float)
    (accepted : e.validate = .ok ()) (unexpired : options.timeoutMs ≠ 0)
    (wide : options.featureCount ≤ x.cols) :
    e.evaluate options x = e.route? options >>= Route.values x ∧
      (∀ route, e.route? options = .ok route → (route.isBroadcast = true ↔
        (∃ v, e.nodes[e.root]? = some (.const v) ∧ v.isFinite = true) ∨
          ∀ i, ¬e.Reaches (.var i))) ∧
      (e.evaluate options x = e.evaluateCompiled options x ↔
        ¬(x.rows = 0 ∧ e.MissesProbe options)) := by
  have valid := (validate_eq_ok_iff e).mp accepted
  exact ⟨evaluate_eq_route options e x, fun route taken => valid.isBroadcast_iff taken,
    valid.evaluate_eq_evaluateCompiled_iff unexpired wide⟩

/-- `2.0 + 3.0`, stored beside a feature that it does not read. -/
def literalSum : Expr Float := ⟨#[.var 0, .const 2, .const 3, .nary .add [1, 2]], 3⟩

theorem literalSum_shortcut :
    literalSum.validate = .ok () ∧
      literalSum.evaluate ⟨1, 5, 1⟩ (Matrix.ofColumn [7, Scalar.posInf]) = .ok [5, 5] ∧
      literalSum.evaluateCompiled ⟨1, 5, 1⟩ (Matrix.ofColumn [7, Scalar.posInf]) = .ok [5, 5] ∧
      literalSum.evaluate ⟨1, 5, 1⟩ (Matrix.ofColumn []) =
        literalSum.evaluateCompiled ⟨1, 5, 1⟩ (Matrix.ofColumn []) := by
  have run : literalSum.evaluate ⟨1, 5, 1⟩ (Matrix.ofColumn [7, Scalar.posInf]) = .ok [5, 5] := by
    decide +kernel
  have given := (shortcuts_agree_iff literalSum ⟨1, 5, 1⟩ (Matrix.ofColumn [7, Scalar.posInf])
    (by decide +kernel) (by decide) (by decide)).2.2.mpr fun ⟨rowless, _⟩ => by cases rowless
  have countable : ¬literalSum.Reaches (.param uncountable) := fun reaches => by
    obtain ⟨i, -, found⟩ := reaches
    have member := Array.mem_of_getElem? found
    simp [literalSum] at member
  exact ⟨by decide +kernel, run, given ▸ run,
    (shortcuts_agree_iff literalSum ⟨1, 5, 1⟩ (Matrix.ofColumn []) (by decide +kernel) (by decide)
      (by decide)).2.2.mpr fun ⟨_, misses⟩ => countable misses.uncounted⟩

/-- Without rows the coefficient that is not counted is still read, by the run at the row of
zeros. -/
theorem uncounted_not_shortcut :
    uncounted.validate = .ok () ∧ (Matrix.ofColumn ([] : List Float)).rows = 0 ∧
      uncounted.evaluateCompiled ⟨1, 5, 1⟩ (Matrix.ofColumn []) = .ok [] ∧
      uncounted.evaluate ⟨1, 5, 1⟩ (Matrix.ofColumn []) =
        .error (.indexOutside uncountable.toNat 0) :=
  ⟨rfl, rfl, by decide +kernel, by decide +kernel⟩

end Expr

end FormulaFit
