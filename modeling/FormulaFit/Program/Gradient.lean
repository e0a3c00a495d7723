import FormulaFit.Program.Basic

/-!
# Loss and gradient

The loss of a program is its mean squared residual, and its gradient with respect to the
coefficients is accumulated backwards: the adjoint of a slot is what the loss gains per unit of it,
and an instruction passes its adjoint on to its operands by its local derivatives.  A division by
zero is constant, a maximum or minimum follows its first attaining operand, and an exponent counts
only over a positive base.
-/

namespace FormulaFit

namespace UnaryOp

/-- Derivative of an operator at an operand, given the value there as well. -/
def derivative {α : Type} [Scalar α] (op : UnaryOp) (a out : α) : α :=
  match op with
  | neg => -1
  | sin => Scalar.cos a
  | cos => -Scalar.sin a
  | log => 1 / a
  | sqrt => 1 / Scalar.ofNat 2 / out
  | exp => out
  | abs => if Scalar.eq a 0 then 0 else Scalar.sign a

end UnaryOp

namespace Instr

variable {α : Type} [Scalar α]

/-- What an instruction passes to its operand slots, in order: its adjoint times the derivative with
respect to each. -/
def contributions (slot : Nat → α) (out adjoint : α) : Instr α Nat → List (Nat × α)
  | const _ | var _ | param _ => []
  | unary op a => [(a, adjoint * op.derivative (slot a) out)]
  | binary .sub a b => [(a, adjoint), (b, -adjoint)]
  | binary .div a b =>
    if Scalar.eq (slot b) 0 then []
    else [(a, adjoint / slot b), (b, -(adjoint * slot a / (slot b * slot b)))]
  | binary .pow a b =>
    (a, adjoint * slot b * Scalar.pow (slot a) (slot b - 1)) ::
      if Scalar.lt 0 (slot a) then [(b, adjoint * out * Scalar.log (slot a))] else []
  | nary .add args => args.map fun a => (a, adjoint)
  | nary .mul args =>
    args.zipIdx.map fun (a, j) =>
      (a, adjoint * Scalar.product ((args.eraseIdx j).map slot))
  | nary .max args | nary .min args =>
    match args.find? fun a => Scalar.eq (slot a) out with
    | some a => [(a, adjoint)]
    | none => []

end Instr

namespace Program

variable {α : Type} [Scalar α]

/-- Adds a contribution to one entry. -/
def addAt (values : Array α) (entry : Nat × α) : Array α :=
  values.modify entry.1 fun v => v + entry.2

/-- Adjoints of the slots and gradient of the coefficients, as far as they are accumulated. -/
structure Adjoints (α : Type) where
  /-- One adjoint for every slot. -/
  slots : Array α
  /-- One derivative for every coefficient. -/
  gradient : Array α

/-- Lets one instruction pass on its adjoint; an adjoint of zero passes nothing. -/
def Adjoints.pass (values : Array α) (adjoints : Adjoints α) (instr : Instr α Nat) (k : Nat) :
    Adjoints α :=
  let adjoint := adjoints.slots.getD k 0
  if Scalar.eq adjoint 0 then adjoints
  else
    match instr with
    | .param i => { adjoints with gradient := addAt adjoints.gradient (i, adjoint) }
    | instr =>
      let passed := instr.contributions (fun a => values.getD a 0) (values.getD k 0) adjoint
      { adjoints with slots := passed.foldl addAt adjoints.slots }

/-- Adds the derivatives of one row to a gradient, given the adjoint of the value at the row. -/
def backward (p : Program α) (values : Array α) (adjoint : α) (gradient : Array α) : Array α :=
  let start : Adjoints α :=
    ⟨(Array.replicate p.instrs.size 0).setIfInBounds (p.instrs.size - 1) adjoint, gradient⟩
  (p.instrs.toList.zipIdx.foldr (fun (instr, k) adjoints => adjoints.pass values instr k)
    start).gradient

/-- What a pass over the rows has accumulated. -/
structure Sums (α : Type) where
  /-- Squared residuals. -/
  loss : α
  /-- Derivatives of the loss. -/
  gradient : Array α
  /-- The slots that the last row left behind. -/
  buffer : Array α

/-- Adds one row with its target to the squared residuals and to the gradient. -/
def addRow (p : Program α) (params : Array α) (count : α) (sums : Sums α)
    (sample : Array α × α) : Except Error (Sums α) := do
  let slots ← p.forward sample.1 params sums.buffer
  let residual := (← p.output slots) - sample.2
  return {
    loss := sums.loss + residual * residual
    gradient := p.backward slots (Scalar.ofNat 2 * residual / count) sums.gradient
    buffer := slots }

/-- The mean squared residual against the targets, and its gradient with respect to the
coefficients. -/
def lossAndGradient (p : Program α) (x : Matrix α) (targets : List α) (params : Array α) :
    Except Error (α × List α) := do
  p.checkInputs x params
  if targets.length ≠ x.rows || targets.isEmpty then
    throw (.data (.targetsForRows targets.length x.rows))
  let count := Scalar.ofNat x.rows
  let sums ← (x.rowList.zip targets).foldlM (p.addRow params count)
    ⟨0, Array.replicate p.paramCount 0, p.freshSlots⟩
  return (sums.loss / count, sums.gradient.toList)

end Program

end FormulaFit
