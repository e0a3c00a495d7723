import FormulaFit.Data.Matrix

/-!
# Programs

A formula is compiled to a flat list of instructions in evaluation order.  Every instruction fills
one slot from slots before it, so one pass over the list evaluates the formula, and a pass back over
the filled slots differentiates it.  The slots of one row are filled again for the next.  Division
by zero gives a placeholder instead of an infinity.
-/

namespace FormulaFit

/-- An instruction over operands of any type: slots in a program, scalars once they are filled. -/
inductive Instr (α β : Type) where
  | const (v : α)
  | var (index : Nat)
  | param (index : Nat)
  | unary (op : UnaryOp) (a : β)
  | binary (op : BinaryOp) (a b : β)
  | nary (op : NaryOp) (args : List β)
deriving DecidableEq, Repr

namespace Instr

variable {α β γ : Type}

/-- The same instruction over other operands. -/
def map (f : β → γ) : Instr α β → Instr α γ
  | const v => const v
  | var i => var i
  | param i => param i
  | unary op a => unary op (f a)
  | binary op a b => binary op (f a) (f b)
  | nary op args => nary op (args.map f)

/-- The instruction reads an input feature. -/
def readsFeature : Instr α β → Bool
  | var _ => true
  | _ => false

/-- The slots that the instruction reads. -/
def operands : Instr α β → List β
  | const _ | var _ | param _ => []
  | unary _ a => [a]
  | binary _ a b => [a, b]
  | nary _ args => args

/-- A quotient, with a placeholder for division by zero. -/
def quotient [Scalar α] (placeholder a b : α) : α :=
  if Scalar.eq b 0 then placeholder else a / b

/-- The value of an instruction over the slots filled so far, a row of data and coefficients. -/
def value [Scalar α] (placeholder : α) (row params slots : Array α) :
    Instr α Nat → Except Error α
  | const v => .ok v
  | var i => fetch row i
  | param i => fetch params i
  | unary op a => do return op.apply (← fetch slots a)
  | binary op a b => do
    let a ← fetch slots a
    let b ← fetch slots b
    return match op with
      | .div => quotient placeholder a b
      | op => op.apply a b
  | nary op args => do return op.fold (← args.mapM (fetch slots))

end Instr

/-- A compiled formula. -/
structure Program (α : Type) where
  /-- The instructions in evaluation order; the last one is the value of the formula. -/
  instrs : Array (Instr α Nat)
  featureCount : Nat
  paramCount : Nat
  /-- Value of a division by zero. -/
  divisionPlaceholder : α
deriving DecidableEq, Repr

namespace Program

variable {α : Type}

/-- The value does not depend on the data. -/
def isInputIndependent (p : Program α) : Bool := !p.instrs.any Instr.readsFeature

variable [Scalar α]

/-- Fills the slots of a buffer in order, each from those filled before it.  What the buffer held
is overwritten. -/
def forward (p : Program α) (row params buffer : Array α) : Except Error (Array α) :=
  p.instrs.toList.zipIdx.foldlM
    (fun slots (instr, k) => do
      put slots k (← instr.value p.divisionPlaceholder row params slots))
    buffer

/-- The value that filled slots hold: that of the last one. -/
def output (p : Program α) (slots : Array α) : Except Error α := fetch slots (p.instrs.size - 1)

/-- Slots before any row. -/
def freshSlots (p : Program α) : Array α := Array.replicate p.instrs.size 0

/-- The coefficients and the columns suffice for the program. -/
def checkInputs (p : Program α) (x : Matrix α) (params : Array α) : Except Error Unit :=
  if params.size ≠ p.paramCount then .error (.data (.paramCount p.paramCount params.size))
  else if x.cols < p.featureCount then .error (.data (.columnCount p.featureCount x.cols))
  else .ok ()

/-- The values at rows, with the slots of each row filled into the buffer that the row before it
left behind. -/
def evaluateRows (p : Program α) (params : Array α) :
    (buffer : Array α) → List (Array α) → Except Error (List α)
  | _, [] => .ok []
  | buffer, row :: rows => do
    let slots ← p.forward row params buffer
    let value ← p.output slots
    return value :: (← p.evaluateRows params slots rows)

/-- One value for every row. -/
def evaluate (p : Program α) (x : Matrix α) (params : Array α) : Except Error (List α) := do
  p.checkInputs x params
  p.evaluateRows params p.freshSlots x.rowList

end Program

end FormulaFit
