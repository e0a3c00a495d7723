import FormulaFit.Proofs.Program.Compilation
import FormulaFit.Proofs.Scalar.Exact

/-!
# Forward differentiation

A dual number is a value with its derivative with respect to one coefficient.  The derivative of a
formula is defined by recursion over the tree, with one rule for each operator, and the slots of its
program carry the dual numbers of the nodes.  Over exact scalars the elementary functions are
uninterpreted and defined everywhere.
-/

namespace FormulaFit

/-- Elementary functions over a field that are defined everywhere. -/
class Elementary (K : Type) where
  sin : K → K
  cos : K → K
  exp : K → K
  log : K → K
  sqrt : K → K
  pow : K → K → K
  /-- The value counts as an integer. -/
  isIntegral : K → Bool

/-- A quotient by zero that no rule excludes is that of the field. -/
instance {K : Type} [Field K] [Elementary K] : Interpretation K where
  sin := Elementary.sin
  cos := Elementary.cos
  exp := Elementary.exp
  log? a := some (Elementary.log a)
  sqrt? a := some (Elementary.sqrt a)
  pow? a b := some (Elementary.pow a b)
  overZero? a := some (a / 0)
  isIntegral := Elementary.isIntegral

/-- A value with its derivative. -/
@[ext]
structure Dual (K : Type) where
  value : K
  tangent : K

namespace Dual

variable {K : Type}

instance [Zero K] : Zero (Dual K) := ⟨⟨0, 0⟩⟩

instance [One K] [Zero K] : One (Dual K) := ⟨⟨1, 0⟩⟩

instance [Add K] : Add (Dual K) := ⟨fun a b => ⟨a.value + b.value, a.tangent + b.tangent⟩⟩

/-- The product rule. -/
instance [Mul K] [Add K] : Mul (Dual K) :=
  ⟨fun a b => ⟨a.value * b.value, a.tangent * b.value + a.value * b.tangent⟩⟩

/-- A constant. -/
def constant [Zero K] (v : K) : Dual K := ⟨v, 0⟩

section Sums

variable [Field K]

theorem value_sum (duals : List (Dual K)) :
    duals.sum.value = (duals.map Dual.value).sum := by
  induction duals with
  | nil => rfl
  | cons d duals ih =>
      rw [List.sum_cons, List.map_cons, List.sum_cons, ← ih]
      rfl

theorem tangent_sum (duals : List (Dual K)) :
    duals.sum.tangent = (duals.map Dual.tangent).sum := by
  induction duals with
  | nil => rfl
  | cons d duals ih =>
      rw [List.sum_cons, List.map_cons, List.sum_cons, ← ih]
      rfl

theorem value_prod (duals : List (Dual K)) :
    duals.prod.value = (duals.map Dual.value).prod := by
  induction duals with
  | nil => rfl
  | cons d duals ih =>
      rw [List.prod_cons, List.map_cons, List.prod_cons, ← ih]
      rfl

end Sums

/-- The first operand that is related to all of them. -/
def firstExtreme [Zero K] (isExtreme : K → K → Bool) (operands : List (Dual K)) : Dual K :=
  (operands.find? fun d => operands.all fun d' => isExtreme d.value d'.value).getD 0

theorem firstExtreme_spec [Zero K] (isExtreme : K → K → Bool) {operands : List (Dual K)}
    {d : Dual K} (member : d ∈ operands) (extreme : ∀ d' ∈ operands, isExtreme d.value d'.value) :
    ∃ first, firstExtreme isExtreme operands = first ∧ first ∈ operands ∧
      ∀ d' ∈ operands, isExtreme first.value d'.value := by
  cases found : operands.find? fun d => operands.all fun d' => isExtreme d.value d'.value with
  | none =>
      have none_extreme := List.find?_eq_none.mp found d member
      exact absurd (List.all_eq_true.mpr extreme) none_extreme
  | some first =>
      have is_first := List.find?_some found
      exact ⟨first, by rw [firstExtreme, found, Option.getD_some], List.mem_of_find?_eq_some found,
        List.all_eq_true.mp is_first⟩

end Dual

theorem exists_extreme {K β : Type} [LinearOrder K] {items : List β} (nonempty : items ≠ [])
    (v : β → K) :
    (∃ b ∈ items, ∀ b' ∈ items, v b' ≤ v b) ∧ ∃ b ∈ items, ∀ b' ∈ items, v b ≤ v b' := by
  constructor
  · have some_max := List.isSome_max?_of_ne_nil (l := items.map v) (by simpa using nonempty)
    obtain ⟨m, is_max⟩ := Option.isSome_iff_exists.mp some_max
    obtain ⟨attained, above⟩ := List.max?_eq_some_iff.mp is_max
    obtain ⟨b, member, rfl⟩ := List.mem_map.mp attained
    exact ⟨b, member, by simpa using above⟩
  · have some_min := List.isSome_min?_of_ne_nil (l := items.map v) (by simpa using nonempty)
    obtain ⟨m, is_min⟩ := Option.isSome_iff_exists.mp some_min
    obtain ⟨attained, below⟩ := List.min?_eq_some_iff.mp is_min
    obtain ⟨b, member, rfl⟩ := List.mem_map.mp attained
    exact ⟨b, member, by simpa using below⟩

section Rules

variable {K : Type} [Field K] [LinearOrder K] [Elementary K]

/-- The value of an operator. -/
def UnaryOp.total : UnaryOp → K → K
  | .neg, a => -a
  | .sin, a => Elementary.sin a
  | .cos, a => Elementary.cos a
  | .log, a => Elementary.log a
  | .sqrt, a => Elementary.sqrt a
  | .exp, a => Elementary.exp a
  | .abs, a => |a|

/-- The slope of an operator at an operand, given the value there as well. -/
def UnaryOp.slope (op : UnaryOp) (a out : K) : K :=
  match op with
  | .neg => -1
  | .sin => Elementary.cos a
  | .cos => -Elementary.sin a
  | .log => 1 / a
  | .sqrt => 1 / 2 / out
  | .exp => out
  | .abs => if a = 0 then 0 else if a < 0 then -1 else 1

/-- The chain rule for an operator of one operand. -/
def UnaryOp.dual (op : UnaryOp) (a : Dual K) : Dual K :=
  let out := op.total a.value
  ⟨out, op.slope a.value out * a.tangent⟩

/-- The chain rule for an operator of two operands.  Division by zero is constant, and an exponent
counts only over a positive base. -/
def BinaryOp.dual (placeholder : K) (op : BinaryOp) (a b : Dual K) : Dual K :=
  match op with
  | .sub => ⟨a.value - b.value, a.tangent - b.tangent⟩
  | .div =>
    if b.value = 0 then .constant placeholder
    else ⟨a.value / b.value, a.tangent / b.value - a.value * b.tangent / (b.value * b.value)⟩
  | .pow =>
    let out := Elementary.pow a.value b.value
    ⟨out, b.value * Elementary.pow a.value (b.value - 1) * a.tangent +
      if 0 < a.value then out * Elementary.log a.value * b.tangent else 0⟩

/-- The chain rule for an operator of any number of operands.  A maximum or minimum is that of its
first attaining operand. -/
def NaryOp.dual (op : NaryOp) (operands : List (Dual K)) : Dual K :=
  match op with
  | .add => operands.sum
  | .mul => operands.prod
  | .max => .firstExtreme (fun v w => decide (w ≤ v)) operands
  | .min => .firstExtreme (fun v w => decide (v ≤ w)) operands

/-- The value of a node and its derivative with respect to a coefficient, over those of its
children. -/
def Node.dual? (placeholder : K) (row params : Array K) (i : Nat) :
    Node (Exact K) (Option (Dual K)) → Option (Dual K)
  | const v => do return .constant (← v.real?)
  | var j => do return .constant (← row[j.toNat]?)
  | param j => do return ⟨← params[j.toNat]?, if j.toNat = i then 1 else 0⟩
  | unary op a => do return op.dual (← a)
  | binary op a b => do return op.dual placeholder (← a) (← b)
  | nary op args => do return op.dual (← args.mapM id)
  | symbol _ | relation .. | bounds .. | call .. => none

/-- The value of a formula at a row of data and its derivative with respect to a coefficient, by
recursion over the tree. -/
def Tree.dual? (placeholder : K) (row params : Array K) (i : Nat) :
    Tree (Exact K) → Option (Dual K) :=
  Tree.fold (Node.dual? placeholder row params i)

/-- The value of an instruction and its derivative, over those of its operands. -/
def Instr.dual (placeholder : K) (row params : Array K) (i : Nat) :
    Instr (Exact K) (Dual K) → Dual K
  | const v => .constant (v.real?.getD 0)
  | var j => .constant (row.getD j 0)
  | param j => ⟨params.getD j 0, if j = i then 1 else 0⟩
  | unary op a => op.dual a
  | binary op a b => op.dual placeholder a b
  | nary op args => op.dual args

/-- An instruction over values has the dual number of its node over the same values. -/
theorem Instr.dual?_of_ofNode? {featureCount : Nat} {n : Node (Exact K) (Dual K)}
    {instr : Instr (Exact K) (Dual K)} (lowered : ofNode? featureCount n = .ok instr)
    (placeholder : K) {row params : Array K} (i : Nat)
    (column : ∀ j, instr = .var j → j < row.size)
    (coefficient : ∀ j, instr = .param j → j < params.size) :
    (n.map some).dual? placeholder row params i = some (instr.dual placeholder row params i) := by
  cases n with
  | const v =>
      simp only [ofNode?] at lowered
      split at lowered
      · rename_i finite
        cases lowered
        obtain ⟨v, rfl⟩ := Exact.isFinite_iff.mp finite
        rfl
      · cases lowered
  | var j =>
      simp only [ofNode?] at lowered
      split at lowered <;> cases lowered
      simp [Node.map, Node.dual?, dual, Array.getD_eq_getD_getElem?, column _ rfl]
  | param j =>
      cases lowered
      simp [Node.map, Node.dual?, dual, Array.getD_eq_getD_getElem?, coefficient _ rfl]
  | unary op a =>
      cases lowered
      rfl
  | binary op a b =>
      cases lowered
      rfl
  | nary op args =>
      cases lowered
      have duals : (args.map some).mapM id = some args := by
        induction args with
        | nil => rfl
        | cons a args ih => simp_all
      simp only [Node.map, Node.dual?, duals, dual]
      rfl
  | _ => cases lowered

/-- The literal is an element of the field, and there are operands. -/
def Instr.IsProper {β : Type} : Instr (Exact K) β → Prop
  | const v => ∃ r, v = .real r
  | nary _ args => args ≠ []
  | _ => True

omit [Field K] [LinearOrder K] [Elementary K] in
theorem Instr.IsProper.map {β γ : Type} {instr : Instr (Exact K) β} (proper : instr.IsProper)
    (f : β → γ) : (instr.map f).IsProper := by
  cases instr with
  | const v => exact proper
  | nary op args => exact fun empty => proper (List.map_eq_nil_iff.mp empty)
  | _ => trivial

theorem UnaryOp.apply_total (op : UnaryOp) (a : K) :
    op.apply (Exact.real a) = Exact.real (op.total a) := by
  cases op <;> rfl

@[simp]
theorem Exact.real_div_real (a b : K) : Exact.real a / Exact.real b = Exact.real (a / b) := by
  rw [Exact.real_div, Exact.div?]
  split
  · rename_i zero
    rw [zero]
    rfl
  · rfl

@[simp]
theorem Exact.pow_total (a b : K) :
    Scalar.pow (Exact.real a) (Exact.real b) = Exact.real (Elementary.pow a b) := rfl

@[simp]
theorem Exact.log_total (a : K) :
    Scalar.log (Exact.real a) = Exact.real (Elementary.log a) := rfl

theorem BinaryOp.value_dual (placeholder : K) (op : BinaryOp) (a b : Dual K) :
    (match op with
      | .div => Instr.quotient (Exact.real placeholder) (Exact.real a.value) (Exact.real b.value)
      | op => op.apply (Exact.real a.value) (Exact.real b.value)) =
      Exact.real (op.dual placeholder a b).value := by
  cases op with
  | sub => rfl
  | div =>
      simp only [Instr.quotient, Exact.zero_eq, Exact.eq_real, decide_eq_true_eq, dual,
        Exact.real_div_real]
      split <;> rfl
  | pow => rfl

omit [Elementary K] in
theorem NaryOp.meaning?_value (op : NaryOp) {duals : List (Dual K)} (nonempty : duals ≠ []) :
    op.meaning? (duals.map Dual.value) = some (op.dual duals).value := by
  cases op with
  | add => rw [dual, Dual.value_sum, meaning?]
  | mul => rw [dual, Dual.value_prod, meaning?]
  | max =>
      obtain ⟨d, member, above⟩ := (exists_extreme nonempty Dual.value).1
      obtain ⟨first, found, member', extreme⟩ := Dual.firstExtreme_spec
        (fun v w => decide (w ≤ v)) member (by simpa using above)
      rw [dual, meaning?, found, List.max?_eq_some_iff]
      exact ⟨List.mem_map_of_mem member', by simpa using extreme⟩
  | min =>
      obtain ⟨d, member, below⟩ := (exists_extreme nonempty Dual.value).2
      obtain ⟨first, found, member', extreme⟩ := Dual.firstExtreme_spec
        (fun v w => decide (v ≤ w)) member (by simpa using below)
      rw [dual, meaning?, found, List.min?_eq_some_iff]
      exact ⟨List.mem_map_of_mem member', by simpa using extreme⟩

theorem Instr.result_dual (placeholder : K) (row params : Array K) (i : Nat)
    {instr : Instr (Exact K) (Dual K)} (proper : instr.IsProper) :
    (instr.map fun d => Exact.real d.value).result (Exact.real placeholder) (row.map Exact.real)
        (params.map Exact.real) =
      Exact.real (instr.dual placeholder row params i).value := by
  cases instr with
  | const v =>
      obtain ⟨r, rfl⟩ := proper
      rfl
  | var j => exact Exact.getD_map_real row j
  | param j => exact Exact.getD_map_real params j
  | unary op a => exact op.apply_total a.value
  | binary op a b =>
      have value_eq := BinaryOp.value_dual placeholder op a b
      cases op <;> exact value_eq
  | nary op args =>
      have folded := NaryOp.fold_real (NaryOp.meaning?_value op proper)
      rwa [List.map_map] at folded

namespace Program

/-- Every instruction is proper. -/
def IsProper (p : Program (Exact K)) : Prop := ∀ instr ∈ p.instrs.toList, instr.IsProper

/-- The dual numbers in the slots of a program at a row of data. -/
def dualSlots (p : Program (Exact K)) (placeholder : K) (row params : Array K) (i : Nat) :
    Array (Dual K) :=
  Instr.fill (Instr.dual placeholder row params i) p.instrs.toList

theorem rowSlots_eq_map_dualSlots {p : Program (Exact K)} (proper : p.IsProper) {placeholder : K}
    (placeholder_eq : p.divisionPlaceholder = Exact.real placeholder) (row params : Array K)
    (i : Nat) :
    p.rowSlots (row.map Exact.real) (params.map Exact.real) =
      (p.dualSlots placeholder row params i).map fun d => Exact.real d.value := by
  rw [rowSlots, placeholder_eq]
  refine Instr.fill_map rfl fun instr member slots => ?_
  exact Instr.result_dual placeholder row params i ((proper instr member).map _)

namespace Lowers

variable {options : CompileOptions (Exact K)} {e : Expr (Exact K)} {p : Program (Exact K)}

/-- Literals that are compiled are finite, and operators of any number of operands have some. -/
theorem isProper (lowers : Lowers options e p) (valid : e.Valid) : p.IsProper := by
  intro instr member
  obtain ⟨k, found⟩ := List.mem_iff_getElem?.mp member
  obtain ⟨i, n, -, at_i, -, lowered⟩ := lowers.instr_of k instr (by simpa using found)
  cases n with
  | const v =>
      simp only [Node.map, Instr.ofNode?] at lowered
      split at lowered
      · rename_i finite
        cases lowered
        exact Exact.isFinite_iff.mp finite
      · cases lowered
  | var j =>
      simp only [Node.map, Instr.ofNode?] at lowered
      split at lowered <;> cases lowered
      trivial
  | nary op args =>
      cases lowered
      exact fun empty => valid.operands_ne_nil at_i (List.map_eq_nil_iff.mp empty)
  | _ => cases lowered <;> trivial

/-- The last slot carries the dual number of the whole formula. -/
theorem dual?_unfold (lowers : Lowers options e p) (valid : e.Valid)
    (countable : ¬e.Reaches (.param uncountable)) (placeholder : K) {row params : Array K}
    (wide : options.featureCount ≤ row.size) (supplied : params.size = p.paramCount) (i : Nat) :
    e.unfold.dual? placeholder row params i =
      some ((p.dualSlots placeholder row params i).getD (p.instrs.size - 1) 0) := by
  rw [← lowers.slotIndex_root valid, Expr.unfold_eq_treeAt]
  refine lowers.fold_treeAt valid (fun k instr found slots n lowered => ?_) .root
  have fits : instr.Fits (row.map Exact.real) (params.map Exact.real) k :=
    lowers.fits valid countable (by simpa using wide) (by simpa using supplied) k instr found
  obtain ⟨column, coefficient⟩ := fits.leaves slots
  exact Instr.dual?_of_ofNode? lowered placeholder i (by simpa using column)
    (by simpa using coefficient)

end Lowers

end Program

end Rules

end FormulaFit
