import FormulaFit.Program.Gradient
import FormulaFit.Proofs.Program.ForwardMode
import Mathlib.Algebra.BigOperators.Ring.Finset
import Mathlib.Algebra.BigOperators.Ring.List
import Mathlib.Data.List.Find
import Mathlib.Tactic.Ring
import Mathlib.Tactic.FieldSimp

/-!
# Reverse differentiation

The pass back over the slots keeps a sum: the derivative accumulated so far plus the adjoint of
every slot not yet passed times its tangent.  Each instruction hands its share of the sum on to its
operands or to a coefficient, so in the end the gradient holds what forward differentiation gives.
-/

namespace FormulaFit

section Instructions

variable {K : Type} [Field K] [LinearOrder K] [Elementary K]

omit [LinearOrder K] [Elementary K] in
theorem Dual.tangent_prod (args : List Nat) (v t : Nat → K) :
    ((args.map fun a => Dual.mk (v a) (t a)).prod).tangent =
      (args.zipIdx.map fun (a, j) => ((args.eraseIdx j).map v).prod * t a).sum := by
  induction args with
  | nil => rfl
  | cons a args ih =>
      have value_eq : ((args.map fun a => Dual.mk (v a) (t a)).prod).value = (args.map v).prod := by
        rw [Dual.value_prod, List.map_map]
        rfl
      have later : ((args.zipIdx 1).map fun (b, j) =>
          (((a :: args).eraseIdx j).map v).prod * t b).sum =
          v a * (args.zipIdx.map fun (b, j) => ((args.eraseIdx j).map v).prod * t b).sum := by
        rw [List.zipIdx_succ, List.map_map, ← List.sum_map_mul_left]
        simp [Function.comp_def, mul_assoc]
      rw [List.map_cons, List.prod_cons, List.zipIdx_cons, List.map_cons, List.sum_cons, later,
        ← ih]
      change t a * ((args.map fun a => Dual.mk (v a) (t a)).prod).value +
        v a * ((args.map fun a => Dual.mk (v a) (t a)).prod).tangent = _
      rw [value_eq, mul_comm (t a)]
      rfl

omit [Field K] [LinearOrder K] [Elementary K] in
theorem Dual.firstExtreme_map [Zero K] [DecidableEq K] (isExtreme : K → K → Bool)
    (antisymm : ∀ v w, isExtreme v w → isExtreme w v → v = w) {args : List Nat} {v : Nat → K}
    (attained : ∃ a ∈ args, ∀ b ∈ args, isExtreme (v a) (v b)) :
    ∃ a ∈ args, (∀ t : Nat → K,
      firstExtreme isExtreme (args.map fun b => Dual.mk (v b) (t b)) = ⟨v a, t a⟩) ∧
      (args.find? fun b => decide (v b = v a)) = some a := by
  cases found : args.find? fun a => args.all fun b => isExtreme (v a) (v b) with
  | none =>
      obtain ⟨a, member, extreme⟩ := attained
      exact absurd (List.all_eq_true.mpr extreme) (List.find?_eq_none.mp found a member)
  | some a =>
      have member := List.mem_of_find?_eq_some found
      have first_extreme := List.find?_some found
      have extreme := List.all_eq_true.mp first_extreme
      refine ⟨a, member, fun t => ?_, ?_⟩
      · simp only [firstExtreme, List.find?_map, List.all_map, Function.comp_def, found,
          Option.map_some, Option.getD_some]
      · rw [← found]
        refine List.find?_congr fun b member' => ?_
        rw [Bool.eq_iff_iff, decide_eq_true_eq, List.all_eq_true]
        constructor
        · intro same
          rwa [same]
        · exact fun extreme' => antisymm _ _ (extreme' a member) (extreme b member')

theorem UnaryOp.derivative_real (op : UnaryOp) (a out : K) :
    op.derivative (Exact.real a) (Exact.real out) = Exact.real (op.slope a out) := by
  cases op with
  | abs =>
      simp only [derivative, slope, Exact.zero_eq, Exact.eq_real, decide_eq_true_eq, Scalar.sign,
        Scalar.isNaN, reduceCtorEq, decide_false, Bool.false_eq_true, if_false, Exact.lt_real]
      split
      · rfl
      · split <;> rfl
  | log => simp [derivative, slope, Exact.one_eq]
  | sqrt => simp [derivative, slope, Exact.one_eq, Exact.ofNat_eq]
  | _ => rfl

/-- What an instruction passes to its operands for an adjoint: over the given values it is a list of
elements of the field, and weighted by tangents it is the adjoint times the tangent of the
instruction. -/
structure Instr.Passes (placeholder : K) (row params : Array K) (instr : Instr (Exact K) Nat)
    (v : Nat → K) (g : K) (passed : List (Nat × K)) : Prop where
  /-- The contributions are elements of the field. -/
  contributions_eq : ∀ i, instr.contributions (fun a => Exact.real (v a))
      (Exact.real ((instr.map fun a => Dual.constant (v a)).dual placeholder row params i).value)
      (Exact.real g) = passed.map (Prod.map id Exact.real)
  /-- They go to operands. -/
  operand : ∀ entry ∈ passed, entry.1 ∈ instr.operands
  /-- Nothing is lost. -/
  sum_eq : ∀ (i : Nat) (t : Nat → K), (passed.map fun entry => entry.2 * t entry.1).sum =
    g * ((instr.map fun a => Dual.mk (v a) (t a)).dual placeholder row params i).tangent

/-- A maximum or minimum passes its whole adjoint to its first attaining operand. -/
theorem Instr.passes_extreme (placeholder : K) (row params : Array K) {op : NaryOp}
    {args : List Nat} {v : Nat → K} {a : Nat} (member : a ∈ args)
    (dual_eq : ∀ t : Nat → K, op.dual (args.map fun b => Dual.mk (v b) (t b)) = ⟨v a, t a⟩)
    (found : (args.find? fun b => decide (v b = v a)) = some a)
    (follows : ∀ (slot : Nat → Exact K) (out adjoint : Exact K),
      (nary op args : Instr (Exact K) Nat).contributions slot out adjoint =
        match args.find? fun b => Scalar.eq (slot b) out with
        | some b => [(b, adjoint)]
        | none => [])
    (g : K) : Instr.Passes placeholder row params (nary op args) v g [(a, g)] := by
  refine ⟨fun i => ?_, by simpa [operands] using member, fun i t => ?_⟩
  · have out_eq : op.dual (args.map fun b => Dual.constant (v b)) = ⟨v a, 0⟩ := dual_eq fun _ => 0
    simp only [follows, map, dual, out_eq, Exact.eq_real, found]
    rfl
  · simp [map, dual, dual_eq t]

theorem Instr.passes_unary (placeholder : K) (row params : Array K) (op : UnaryOp) (a : Nat)
    (v : Nat → K) (g : K) : Instr.Passes placeholder row params (unary op a) v g
      [(a, g * op.slope (v a) (op.total (v a)))] where
  contributions_eq i := by
    have slope_eq : op.derivative (Exact.real (v a)) (Exact.real (op.total (v a))) =
        Exact.real (op.slope (v a) (op.total (v a))) := op.derivative_real _ _
    change [(a, Exact.real g * op.derivative _ (Exact.real (op.total (v a))))] = _
    rw [slope_eq]
    rfl
  operand := by simp [operands]
  sum_eq i t := by simp [map, dual, UnaryOp.dual, mul_assoc]

theorem Instr.passes_sub (placeholder : K) (row params : Array K) (a b : Nat) (v : Nat → K)
    (g : K) : Instr.Passes placeholder row params (binary .sub a b) v g [(a, g), (b, -g)] where
  contributions_eq i := rfl
  operand := by simp [operands]
  sum_eq i t := by
    simp only [List.map_cons, List.map_nil, List.sum_cons, List.sum_nil, map, dual, BinaryOp.dual]
    ring

/-- A quotient by zero is the placeholder, which does not depend on the operands. -/
theorem Instr.passes_div (placeholder : K) (row params : Array K) (a b : Nat) (v : Nat → K)
    (g : K) : Instr.Passes placeholder row params (binary .div a b) v g
      (if v b = 0 then [] else [(a, g / v b), (b, -(g * v a / (v b * v b)))]) := by
  by_cases zero : v b = 0
  · rw [if_pos zero]
    refine ⟨fun i => by simp [contributions, Exact.zero_eq, zero], by simp, fun i t => ?_⟩
    simp [map, dual, BinaryOp.dual, zero, Dual.constant]
  · rw [if_neg zero]
    refine ⟨fun i => by simp [contributions, Exact.zero_eq, zero], by simp [operands],
      fun i t => ?_⟩
    simp only [List.map_cons, List.map_nil, List.sum_cons, List.sum_nil, map, dual, BinaryOp.dual,
      zero, if_false]
    ring

/-- The exponent of a power counts only over a positive base. -/
theorem Instr.passes_pow (placeholder : K) (row params : Array K) (a b : Nat) (v : Nat → K)
    (g : K) : Instr.Passes placeholder row params (binary .pow a b) v g
      ((a, g * v b * Elementary.pow (v a) (v b - 1)) ::
        if 0 < v a then [(b, g * Elementary.pow (v a) (v b) * Elementary.log (v a))] else []) := by
  by_cases positive : 0 < v a
  · rw [if_pos positive]
    refine ⟨fun i => ?_, by simp [operands], fun i t => ?_⟩
    · simp [contributions, Exact.zero_eq, Exact.one_eq, positive, map, dual, BinaryOp.dual,
        Dual.constant]
    · simp [positive, map, dual, BinaryOp.dual]
      ring
  · rw [if_neg positive]
    refine ⟨fun i => ?_, by simp [operands], fun i t => ?_⟩
    · simp [contributions, Exact.zero_eq, Exact.one_eq, positive]
    · simp [positive, map, dual, BinaryOp.dual]
      ring

theorem Instr.passes_add (placeholder : K) (row params : Array K) (args : List Nat) (v : Nat → K)
    (g : K) : Instr.Passes placeholder row params (nary .add args) v g
      (args.map fun a => (a, g)) where
  contributions_eq i := by simp [contributions]
  operand := by simp [operands]
  sum_eq i t := by
    simp only [List.map_map, map, dual, NaryOp.dual, Dual.tangent_sum]
    rw [← List.sum_map_mul_left]
    rfl

/-- A product passes to each factor the product of the others, also if an operand is repeated. -/
theorem Instr.passes_mul (placeholder : K) (row params : Array K) (args : List Nat) (v : Nat → K)
    (g : K) : Instr.Passes placeholder row params (nary .mul args) v g
      (args.zipIdx.map fun (a, j) => (a, g * ((args.eraseIdx j).map v).prod)) where
  contributions_eq i := by
    simp only [contributions, List.map_map]
    refine List.map_congr_left fun entry _ => ?_
    have product_eq := Exact.prod_map_real ((args.eraseIdx entry.2).map v) 1
    rw [List.map_map, one_mul] at product_eq
    simp only [Function.comp_apply, Prod.map, id_eq, Scalar.product]
    rw [← Exact.real_mul, ← product_eq]
    rfl
  operand entry member := by
    obtain ⟨⟨a, j⟩, at_j, rfl⟩ := List.mem_map.mp member
    exact List.fst_mem_of_mem_zipIdx at_j
  sum_eq i t := by
    simp only [map, dual, NaryOp.dual, Dual.tangent_prod, List.map_map]
    rw [← List.sum_map_mul_left]
    simp [Function.comp_def, mul_assoc]

theorem Instr.exists_passes_max (placeholder : K) (row params : Array K) {args : List Nat}
    (proper : (nary .max args : Instr (Exact K) Nat).IsProper) (v : Nat → K) (g : K) :
    ∃ a, Instr.Passes placeholder row params (nary .max args) v g [(a, g)] := by
  obtain ⟨a, member, dual_eq, found⟩ := Dual.firstExtreme_map (fun v w => decide (w ≤ v))
    (fun v w le ge => le_antisymm (by simpa using ge) (by simpa using le))
    (by simpa using (exists_extreme proper v).1)
  change ∀ t : Nat → K, NaryOp.max.dual (args.map fun b => Dual.mk (v b) (t b)) = _ at dual_eq
  exact ⟨a, passes_extreme placeholder row params member dual_eq found (fun _ _ _ => rfl) g⟩

theorem Instr.exists_passes_min (placeholder : K) (row params : Array K) {args : List Nat}
    (proper : (nary .min args : Instr (Exact K) Nat).IsProper) (v : Nat → K) (g : K) :
    ∃ a, Instr.Passes placeholder row params (nary .min args) v g [(a, g)] := by
  obtain ⟨a, member, dual_eq, found⟩ := Dual.firstExtreme_map (fun v w => decide (v ≤ w))
    (fun v w le ge => le_antisymm (by simpa using le) (by simpa using ge))
    (by simpa using (exists_extreme proper v).2)
  change ∀ t : Nat → K, NaryOp.min.dual (args.map fun b => Dual.mk (v b) (t b)) = _ at dual_eq
  exact ⟨a, passes_extreme placeholder row params member dual_eq found (fun _ _ _ => rfl) g⟩

/-- An instruction other than a coefficient shares out its adjoint. -/
theorem Instr.exists_passed (placeholder : K) (row params : Array K) {instr : Instr (Exact K) Nat}
    (proper : instr.IsProper) (other : ∀ j, instr ≠ .param j) (v : Nat → K) (g : K) :
    ∃ passed, instr.Passes placeholder row params v g passed := by
  cases instr with
  | const c => exact ⟨[], fun i => rfl, by simp, fun i t => by simp [map, dual, Dual.constant]⟩
  | var j => exact ⟨[], fun i => rfl, by simp, fun i t => by simp [map, dual, Dual.constant]⟩
  | param j => exact absurd rfl (other j)
  | unary op a => exact ⟨_, passes_unary placeholder row params op a v g⟩
  | binary op a b =>
      cases op with
      | sub => exact ⟨_, passes_sub placeholder row params a b v g⟩
      | div => exact ⟨_, passes_div placeholder row params a b v g⟩
      | pow => exact ⟨_, passes_pow placeholder row params a b v g⟩
  | nary op args =>
      cases op with
      | add => exact ⟨_, passes_add placeholder row params args v g⟩
      | mul => exact ⟨_, passes_mul placeholder row params args v g⟩
      | max =>
          obtain ⟨a, passes⟩ := exists_passes_max placeholder row params proper v g
          exact ⟨_, passes⟩
      | min =>
          obtain ⟨a, passes⟩ := exists_passes_min placeholder row params proper v g
          exact ⟨_, passes⟩

end Instructions

theorem foldr_zipIdx_invariant {β σ : Type} (step : β × Nat → σ → σ) (P : Nat → σ → Prop)
    (items : List β) (start : σ) (initially : P items.length start)
    (keeps : ∀ k b s, items[k]? = some b → P (k + 1) s → P k (step (b, k) s)) :
    P 0 (items.zipIdx.foldr step start) := by
  induction items using List.reverseRecOn generalizing start with
  | nil => exact initially
  | append_singleton items b ih =>
      rw [List.zipIdx_append, List.foldr_append]
      refine ih _ ?_ fun k b' s found holds => ?_
      · have last := keeps items.length b start (by simp) (by simpa using initially)
        simpa using last
      · have k_lt : k < items.length := (List.getElem?_eq_some_iff.mp found).1
        exact keeps k b' s (by rwa [List.getElem?_append_left k_lt]) holds

namespace Program

variable {K : Type} [Field K]

/-- Adds a contribution to one entry. -/
def bump (values : Array K) (entry : Nat × K) : Array K :=
  values.modify entry.1 fun v => v + entry.2

@[simp]
theorem size_bump (values : Array K) (entry : Nat × K) :
    (bump values entry).size = values.size := by
  simp [bump]

@[simp]
theorem size_foldl_bump (values : Array K) (passed : List (Nat × K)) :
    (passed.foldl bump values).size = values.size := by
  induction passed generalizing values with
  | nil => rfl
  | cons entry passed ih => rw [List.foldl_cons, ih, size_bump]

theorem getD_bump {values : Array K} {i : Nat} (i_lt : i < values.size) (entry : Nat × K) :
    (bump values entry).getD i 0 = values.getD i 0 + if entry.1 = i then entry.2 else 0 := by
  simp only [bump, Array.getD_eq_getD_getElem?, Array.getElem?_modify]
  split <;> simp [i_lt]

theorem sum_bump {values : Array K} {k : Nat} (k_le : k ≤ values.size) {entry : Nat × K}
    (entry_lt : entry.1 < k) (t : Nat → K) :
    ∑ j ∈ Finset.range k, (bump values entry).getD j 0 * t j =
      ∑ j ∈ Finset.range k, values.getD j 0 * t j + entry.2 * t entry.1 := by
  have read : ∀ j ∈ Finset.range k, (bump values entry).getD j 0 * t j =
      values.getD j 0 * t j + if j = entry.1 then entry.2 * t entry.1 else 0 := by
    intro j member
    rw [getD_bump (Nat.lt_of_lt_of_le (Finset.mem_range.mp member) k_le), add_mul]
    by_cases same : j = entry.1
    · simp [same]
    · simp [same, Ne.symm same]
  rw [Finset.sum_congr rfl read, Finset.sum_add_distrib, Finset.sum_ite_eq' (Finset.range k),
    if_pos (Finset.mem_range.mpr entry_lt)]

theorem sum_foldl_bump {k : Nat} {passed : List (Nat × K)}
    (entry_lt : ∀ entry ∈ passed, entry.1 < k) (t : Nat → K) {values : Array K}
    (k_le : k ≤ values.size) :
    ∑ j ∈ Finset.range k, (passed.foldl bump values).getD j 0 * t j =
      ∑ j ∈ Finset.range k, values.getD j 0 * t j +
        (passed.map fun entry => entry.2 * t entry.1).sum := by
  induction passed generalizing values with
  | nil => simp
  | cons entry passed ih =>
      rw [List.foldl_cons,
        ih (fun e member => entry_lt e (List.mem_cons_of_mem _ member)) (by simpa),
        sum_bump k_le (entry_lt entry (by simp)), List.map_cons, List.sum_cons, add_assoc]

variable [LinearOrder K] [Elementary K]

theorem addAt_map_real (values : Array K) (entry : Nat × K) :
    addAt (values.map Exact.real) (Prod.map id Exact.real entry) =
      (bump values entry).map Exact.real := by
  apply Array.ext_getElem?
  intro i
  simp only [addAt, bump, Array.getElem?_modify, Array.getElem?_map, Prod.map, id_eq]
  split <;> cases values[i]? <;> rfl

theorem foldl_addAt_map_real (values : Array K) (passed : List (Nat × K)) :
    (passed.map (Prod.map id Exact.real)).foldl addAt (values.map Exact.real) =
      (passed.foldl bump values).map Exact.real := by
  induction passed generalizing values with
  | nil => rfl
  | cons entry passed ih => rw [List.map_cons, List.foldl_cons, addAt_map_real, ih, List.foldl_cons]

namespace Adjoints

variable {α : Type} [Scalar α] {values : Array α} {adjoints : Adjoints α} {k : Nat}

theorem pass_idle (idle : Scalar.eq (adjoints.slots.getD k 0) 0 = true) (instr : Instr α Nat) :
    adjoints.pass values instr k = adjoints := if_pos idle

theorem pass_param (active : Scalar.eq (adjoints.slots.getD k 0) 0 = false) (i : Nat) :
    adjoints.pass values (.param i) k =
      { adjoints with gradient := addAt adjoints.gradient (i, adjoints.slots.getD k 0) } := by
  rw [pass, if_neg (by simpa using active)]

theorem pass_other (active : Scalar.eq (adjoints.slots.getD k 0) 0 = false) {instr : Instr α Nat}
    (other : ∀ i, instr ≠ .param i) :
    adjoints.pass values instr k =
      { adjoints with
        slots := (instr.contributions (fun a => values.getD a 0) (values.getD k 0)
          (adjoints.slots.getD k 0)).foldl addAt adjoints.slots } := by
  simp only [pass, active, Bool.false_eq_true, if_false]

end Adjoints

/-- Adjoints in a field as adjoints over exact scalars. -/
def Adjoints.embed (adjoints : Adjoints K) : Adjoints (Exact K) :=
  ⟨adjoints.slots.map Exact.real, adjoints.gradient.map Exact.real⟩

/-- What is accumulated for a coefficient and what the slots before an index still hold for it. -/
def Adjoints.total (adjoints : Adjoints K) (tangent : Nat → Nat → K) (k i : Nat) : K :=
  adjoints.gradient.getD i 0 + ∑ j ∈ Finset.range k, adjoints.slots.getD j 0 * tangent i j

/-- The adjoints before the pass back: that of the last slot, and a gradient to add to. -/
def Adjoints.start (slots : Nat) (adjoint : K) (gradient : Array K) : Adjoints K :=
  ⟨(Array.replicate slots 0).setIfInBounds (slots - 1) adjoint, gradient⟩

omit [LinearOrder K] [Elementary K] in
theorem Adjoints.total_start {slots : Nat} (nonempty : 0 < slots) (adjoint : K)
    (gradient : Array K) (tangent : Nat → Nat → K) (i : Nat) :
    (start slots adjoint gradient).total tangent slots i =
      gradient.getD i 0 + adjoint * tangent i (slots - 1) := by
  have last_lt : slots - 1 < slots := Nat.sub_one_lt (Nat.ne_of_gt nonempty)
  have read : ∀ j ∈ Finset.range slots,
      (start slots adjoint gradient).slots.getD j 0 * tangent i j =
        if j = slots - 1 then adjoint * tangent i (slots - 1) else 0 := by
    intro j member
    have j_lt := Finset.mem_range.mp member
    simp only [start, Array.getD_eq_getD_getElem?, Array.getElem?_setIfInBounds,
      Array.getElem?_replicate, Array.size_replicate, last_lt, j_lt, if_true]
    by_cases same : j = slots - 1
    · simp [same]
    · simp [same, Ne.symm same]
  rw [total, Finset.sum_congr rfl read, Finset.sum_ite_eq' (Finset.range slots),
    if_pos (Finset.mem_range.mpr last_lt)]
  rfl

theorem Adjoints.embed_start (slots : Nat) (adjoint : K) (gradient : Array K) :
    (start slots adjoint gradient).embed =
      ⟨(Array.replicate slots 0).setIfInBounds (slots - 1) (Exact.real adjoint),
        gradient.map Exact.real⟩ := by
  simp [start, embed, Exact.zero_eq]

section Row

variable {p : Program (Exact K)} {placeholder : K} {row params : Array K}

/-- The value in a slot at a row of data. -/
def slotValue (p : Program (Exact K)) (placeholder : K) (row params : Array K) (k : Nat) : K :=
  ((p.dualSlots placeholder row params 0).getD k 0).value

/-- The derivative in a slot at a row of data with respect to a coefficient. -/
def slotTangent (p : Program (Exact K)) (placeholder : K) (row params : Array K) (i k : Nat) : K :=
  ((p.dualSlots placeholder row params i).getD k 0).tangent

theorem getD_rowSlots (proper : p.IsProper)
    (placeholder_eq : p.divisionPlaceholder = Exact.real placeholder) (i k : Nat) :
    (p.rowSlots (row.map Exact.real) (params.map Exact.real)).getD k 0 =
      Exact.real ((p.dualSlots placeholder row params i).getD k 0).value := by
  rw [rowSlots_eq_map_dualSlots proper placeholder_eq row params i, Array.getD_eq_getD_getElem?,
    Array.getElem?_map, Array.getD_eq_getD_getElem?]
  cases (p.dualSlots placeholder row params i)[k]? <;> rfl

theorem getD_dualSlots (proper : p.IsProper)
    (placeholder_eq : p.divisionPlaceholder = Exact.real placeholder) (i k : Nat) :
    (p.dualSlots placeholder row params i).getD k 0 =
      ⟨p.slotValue placeholder row params k, p.slotTangent placeholder row params i k⟩ := by
  refine Dual.ext ?_ rfl
  rw [slotValue]
  exact Exact.real_injective ((getD_rowSlots proper placeholder_eq i k).symm.trans
    (getD_rowSlots proper placeholder_eq 0 k))

theorem atSlots_dualSlots (proper : p.IsProper)
    (placeholder_eq : p.divisionPlaceholder = Exact.real placeholder) (i : Nat)
    (instr : Instr (Exact K) Nat) :
    instr.atSlots (p.dualSlots placeholder row params i) = instr.map fun a =>
      ⟨p.slotValue placeholder row params a, p.slotTangent placeholder row params i a⟩ :=
  Instr.map_congr fun a _ => getD_dualSlots proper placeholder_eq i a

theorem slotTangent_eq (row params : Array K) (proper : p.IsProper)
    (placeholder_eq : p.divisionPlaceholder = Exact.real placeholder) {k : Nat}
    {instr : Instr (Exact K) Nat} (found : p.instrs[k]? = some instr)
    (operand_lt : ∀ a ∈ instr.operands, a < k) (i : Nat) :
    p.slotTangent placeholder row params i k =
      ((instr.map fun a => Dual.mk (p.slotValue placeholder row params a)
        (p.slotTangent placeholder row params i a)).dual placeholder row params i).tangent := by
  rw [slotTangent, dualSlots, Instr.getD_fill _ (by simpa using found) operand_lt, ← dualSlots,
    atSlots_dualSlots proper placeholder_eq]

theorem slotValue_eq (proper : p.IsProper)
    (placeholder_eq : p.divisionPlaceholder = Exact.real placeholder) {k : Nat}
    {instr : Instr (Exact K) Nat} (found : p.instrs[k]? = some instr)
    (operand_lt : ∀ a ∈ instr.operands, a < k) (i : Nat) :
    p.slotValue placeholder row params k =
      ((instr.map fun a => Dual.constant (p.slotValue placeholder row params a)).dual placeholder
        row params i).value := by
  have instr_proper : instr.IsProper :=
    proper instr (Array.mem_toList_iff.mpr (Array.mem_of_getElem? found))
  have value_at : ∀ (j : Nat) (t : Nat → K),
      Exact.real ((instr.map fun a => Dual.mk (p.slotValue placeholder row params a) (t a)).dual
        placeholder row params j).value =
        (instr.map fun a => Exact.real (p.slotValue placeholder row params a)).result
          (Exact.real placeholder) (row.map Exact.real) (params.map Exact.real) := by
    intro j t
    rw [← Instr.result_dual placeholder row params j (instr_proper.map _), Instr.map_map]
    rfl
  rw [slotValue, dualSlots, Instr.getD_fill _ (by simpa using found) operand_lt, ← dualSlots,
    atSlots_dualSlots proper placeholder_eq]
  exact Exact.real_injective ((value_at 0 _).trans (value_at i _).symm)

/-- Passing back over a slot leaves adjoints in the field, and what is accumulated or still to be
passed on stays the same for every coefficient. -/
structure KeepsTotals (p : Program (Exact K)) (placeholder : K) (row params : Array K) (k : Nat)
    (instr : Instr (Exact K) Nat) (adjoints next : Adjoints K) : Prop where
  pass_eq : adjoints.embed.pass (p.rowSlots (row.map Exact.real) (params.map Exact.real)) instr k =
    next.embed
  slots_size : next.slots.size = p.instrs.size
  gradient_size : next.gradient.size = params.size
  total_eq : ∀ i, i < params.size → next.total (p.slotTangent placeholder row params) k i =
    adjoints.total (p.slotTangent placeholder row params) (k + 1) i

section Pass

variable {k : Nat} {instr : Instr (Exact K) Nat} {adjoints : Adjoints K}
  (slots_size : adjoints.slots.size = p.instrs.size)
  (gradient_size : adjoints.gradient.size = params.size)

include slots_size gradient_size

theorem keepsTotals_idle (idle : adjoints.slots.getD k 0 = 0) :
    KeepsTotals p placeholder row params k instr adjoints adjoints where
  pass_eq := Adjoints.pass_idle (by
    rw [Adjoints.embed, Exact.getD_map_real, idle, Exact.zero_eq, Exact.eq_real, decide_eq_true rfl])
    instr
  slots_size := slots_size
  gradient_size := gradient_size
  total_eq i _ := by
    rw [Adjoints.total, Adjoints.total, Finset.sum_range_succ, idle, zero_mul, add_zero]

variable (proper : p.IsProper) (placeholder_eq : p.divisionPlaceholder = Exact.real placeholder)
  (fits : p.Fits (row.map Exact.real) (params.map Exact.real))
  (active : Scalar.eq (adjoints.embed.slots.getD k 0) 0 = false)

include proper placeholder_eq fits active

theorem keepsTotals_param {j : Nat} (found : p.instrs[k]? = some (.param j)) :
    KeepsTotals p placeholder row params k (.param j) adjoints
      ⟨adjoints.slots, bump adjoints.gradient (j, adjoints.slots.getD k 0)⟩ where
  pass_eq := by
    have bumped := addAt_map_real adjoints.gradient (j, adjoints.slots.getD k 0)
    rw [Adjoints.pass_param active]
    simp only [Adjoints.embed, Exact.getD_map_real, ← bumped, Prod.map, id_eq]
  slots_size := slots_size
  gradient_size := by simpa using gradient_size
  total_eq i i_lt := by
    have share : p.slotTangent placeholder row params i k = if j = i then 1 else 0 :=
      slotTangent_eq row params proper placeholder_eq found (fits k _ found).operand i
    rw [Adjoints.total, Adjoints.total, Finset.sum_range_succ, share,
      getD_bump (gradient_size ▸ i_lt)]
    split <;> ring

theorem exists_keepsTotals_other (found : p.instrs[k]? = some instr)
    (other : ∀ j, instr ≠ .param j) :
    ∃ next, KeepsTotals p placeholder row params k instr adjoints next := by
  have operand_lt := (fits k instr found).operand
  have instr_proper : instr.IsProper :=
    proper instr (Array.mem_toList_iff.mpr (Array.mem_of_getElem? found))
  obtain ⟨passed, passes⟩ := Instr.exists_passed placeholder row params instr_proper other
    (p.slotValue placeholder row params) (adjoints.slots.getD k 0)
  refine ⟨⟨passed.foldl bump adjoints.slots, adjoints.gradient⟩, ?_, by simpa using slots_size,
    gradient_size, fun i _ => ?_⟩
  · have adjoint_eq : adjoints.embed.slots.getD k 0 = Exact.real (adjoints.slots.getD k 0) :=
      Exact.getD_map_real _ k
    rw [Adjoints.pass_other active other, adjoint_eq]
    simp only [getD_rowSlots proper placeholder_eq 0]
    change Adjoints.mk (List.foldl addAt _ (instr.contributions
      (fun a => Exact.real (p.slotValue placeholder row params a))
      (Exact.real (p.slotValue placeholder row params k)) _)) _ = _
    rw [slotValue_eq proper placeholder_eq found operand_lt 0, passes.contributions_eq]
    simp only [Adjoints.embed, foldl_addAt_map_real]
  · -- Contributions go to slots before this one, whose share of the sum they make up.
    have k_le : k ≤ adjoints.slots.size :=
      slots_size ▸ Nat.le_of_lt (Array.getElem?_eq_some_iff.mp found).1
    have tangent_eq := slotTangent_eq row params proper placeholder_eq found operand_lt i
    rw [Adjoints.total, Adjoints.total, Finset.sum_range_succ, tangent_eq, ← passes.sum_eq,
      sum_foldl_bump (fun entry member => operand_lt _ (passes.operand entry member)) _ k_le]

omit active in
/-- Whatever its instruction, passing back over a slot changes no total. -/
theorem exists_keepsTotals (found : p.instrs[k]? = some instr) :
    ∃ next, KeepsTotals p placeholder row params k instr adjoints next := by
  by_cases idle : adjoints.slots.getD k 0 = 0
  · exact ⟨adjoints, keepsTotals_idle slots_size gradient_size idle⟩
  have active : Scalar.eq (adjoints.embed.slots.getD k 0) 0 = false := by
    rw [Adjoints.embed, Exact.getD_map_real, Exact.zero_eq, Exact.eq_real, decide_eq_false idle]
  by_cases coefficient : ∃ j, instr = .param j
  · obtain ⟨j, rfl⟩ := coefficient
    exact ⟨_, keepsTotals_param slots_size gradient_size proper placeholder_eq fits active found⟩
  · exact exists_keepsTotals_other slots_size gradient_size proper placeholder_eq fits active found
      fun j same => coefficient ⟨j, same⟩

end Pass

/-- The pass back adds to every derivative the adjoint of the value times its tangent. -/
theorem exists_backward_eq (proper : p.IsProper)
    (placeholder_eq : p.divisionPlaceholder = Exact.real placeholder)
    (fits : p.Fits (row.map Exact.real) (params.map Exact.real)) (nonempty : 0 < p.instrs.size)
    (adjoint : K) {gradient : Array K} (gradient_size : gradient.size = params.size) :
    ∃ next : Array K,
      p.backward (p.rowSlots (row.map Exact.real) (params.map Exact.real)) (Exact.real adjoint)
          (gradient.map Exact.real) = next.map Exact.real ∧
        next.size = params.size ∧ ∀ i, i < params.size → next.getD i 0 = gradient.getD i 0 +
          adjoint * p.slotTangent placeholder row params i (p.instrs.size - 1) := by
  let start := Adjoints.start p.instrs.size adjoint gradient
  have passed := foldr_zipIdx_invariant
    (fun (instr, k) adjoints => Adjoints.pass (p.rowSlots (row.map Exact.real)
      (params.map Exact.real)) adjoints instr k)
    (fun k adjoints => ∃ a : Adjoints K, adjoints = a.embed ∧ a.slots.size = p.instrs.size ∧
      a.gradient.size = params.size ∧ ∀ i, i < params.size →
        a.total (p.slotTangent placeholder row params) k i =
          start.total (p.slotTangent placeholder row params) p.instrs.size i)
    p.instrs.toList start.embed
    ⟨start, rfl, by simp [start, Adjoints.start], gradient_size, fun i _ => by simp⟩
    (by
      rintro k instr _ found ⟨a, rfl, slots_size, size_eq, total_eq⟩
      obtain ⟨next, keeps⟩ := exists_keepsTotals slots_size size_eq proper placeholder_eq fits
        (by simpa using found)
      exact ⟨next, keeps.pass_eq, keeps.slots_size, keeps.gradient_size,
        fun i i_lt => (keeps.total_eq i i_lt).trans (total_eq i i_lt)⟩)
  obtain ⟨final, final_eq, -, size_eq, total_eq⟩ := passed
  refine ⟨final.gradient, ?_, size_eq, fun i i_lt => ?_⟩
  · rw [backward, ← Adjoints.embed_start]
    exact congrArg Adjoints.gradient final_eq
  · rw [← Adjoints.total_start nonempty adjoint gradient, ← total_eq i i_lt, Adjoints.total,
      Finset.range_zero, Finset.sum_empty, add_zero]

end Row

/-- The value of a program at a row of data. -/
def rowValue (p : Program (Exact K)) (placeholder : K) (params row : Array K) : K :=
  p.slotValue placeholder row params (p.instrs.size - 1)

/-- The derivative of a program at a row of data with respect to a coefficient. -/
def rowTangent (p : Program (Exact K)) (placeholder : K) (params : Array K) (i : Nat)
    (row : Array K) : K :=
  p.slotTangent placeholder row params i (p.instrs.size - 1)

section Samples

variable {p : Program (Exact K)} {placeholder : K} {params : Array K}

theorem exists_addRow_eq (proper : p.IsProper)
    (placeholder_eq : p.divisionPlaceholder = Exact.real placeholder)
    (nonempty : 0 < p.instrs.size) (n : K) {row : Array K}
    (fits : p.Fits (row.map Exact.real) (params.map Exact.real)) (y loss : K)
    {gradient : Array K} (gradient_size : gradient.size = params.size) {buffer : Array (Exact K)}
    (buffer_size : buffer.size = p.instrs.size) :
    ∃ next : Array K,
      p.addRow (params.map Exact.real) (Exact.real n)
          ⟨Exact.real loss, gradient.map Exact.real, buffer⟩ (row.map Exact.real, Exact.real y) =
        .ok ⟨Exact.real (loss + (p.rowValue placeholder params row - y) ^ 2), next.map Exact.real,
          p.rowSlots (row.map Exact.real) (params.map Exact.real)⟩ ∧
        next.size = params.size ∧ ∀ i, i < params.size → next.getD i 0 = gradient.getD i 0 +
          2 * (p.rowValue placeholder params row - y) *
            p.rowTangent placeholder params i row / n := by
  obtain ⟨next, next_eq, next_size, next_getD⟩ := exists_backward_eq proper placeholder_eq fits
    nonempty (2 * (p.rowValue placeholder params row - y) / n) gradient_size
  have last_lt : p.instrs.size - 1 <
      (p.rowSlots (row.map Exact.real) (params.map Exact.real)).size := by
    rw [size_rowSlots]
    exact Nat.sub_one_lt (Nat.ne_of_gt nonempty)
  have output_eq : p.output (p.rowSlots (row.map Exact.real) (params.map Exact.real)) =
      .ok (Exact.real (p.rowValue placeholder params row)) := by
    rw [output, fetch_eq_getD last_lt 0, getD_rowSlots proper placeholder_eq 0]
    rfl
  refine ⟨next, ?_, next_size, fun i i_lt => ?_⟩
  · rw [addRow, forward_eq_rowSlots fits buffer_size]
    simp only [bind, Except.bind, output_eq, pure, Except.pure, Exact.real_sub, Exact.real_mul,
      Exact.real_add, Exact.ofNat_eq, Exact.real_div_real, Nat.cast_ofNat, next_eq, pow_two]
  · rw [next_getD i i_lt, rowTangent]
    ring

end Samples

end Program

end FormulaFit
