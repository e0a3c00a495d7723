import FormulaFit.Deadline
import FormulaFit.Program.Basic

/-!
# Compilation

The nodes below the root become instructions in index order, which puts every operand before its
use and a shared node into one slot.  A degenerate part, a function outside the vocabulary and a
feature that the data do not have cannot be compiled; of several faults the one with the smallest
index counts.
-/

namespace FormulaFit

/-- How formulas are compiled. -/
structure CompileOptions (α : Type) where
  /-- Number of columns of the data. -/
  featureCount : Nat
  /-- Time limit in milliseconds. -/
  timeoutMs : Nat
  /-- Value of a division by zero. -/
  divisionPlaceholder : α
deriving DecidableEq, Repr

/-- Why a formula cannot be compiled. -/
inductive CompileFault (α : Type) where
  | invalid (fault : ExprFault)
  | timeout (limitMs : Nat)
  | nonFiniteLiteral (v : α)
  | featureOutside (index count : Nat)
  | unsupported (part : Unsupported)
deriving DecidableEq, Repr

/-- The fault as an error. -/
def CompileFault.toError : CompileFault Float → Error
  | invalid fault => .unsanitizable (.invalid fault)
  | timeout limitMs => .timeout .compile limitMs
  | nonFiniteLiteral v => .numericInvalid (.nonFiniteLiteral v)
  | featureOutside index count => .data (.featureOutside index count)
  | unsupported part => .unsupported part

/-- The instruction for a node over the same operands. -/
def Instr.ofNode? {α β : Type} [Scalar α] (featureCount : Nat) :
    Node α β → Except (CompileFault α) (Instr α β)
  | .const v => if Scalar.isFinite v then .ok (.const v) else .error (.nonFiniteLiteral v)
  | .var i =>
    if i.toNat < featureCount then .ok (.var i.toNat)
    else .error (.featureOutside i.toNat featureCount)
  | .param i => .ok (.param i.toNat)
  | .unary op a => .ok (.unary op a)
  | .binary op a b => .ok (.binary op a b)
  | .nary op args => .ok (.nary op args)
  | .symbol s => .error (.unsupported (.symbol s))
  | .relation op _ _ => .error (.unsupported (.relation op))
  | .bounds _ _ => .error (.unsupported .bounds)
  | .call name _ => .error (.unsupported (.call name))

namespace Expr

variable {α : Type}

/-- Marks the nodes below the root, in a sweep from the last index to the first. -/
def marks (e : Expr α) : Array Bool :=
  (List.range e.nodes.size).foldr
    (fun i marks =>
      match marks.getD i false, e.nodes[i]? with
      | true, some n => n.children.foldl (fun marks c => marks.setIfInBounds c true) marks
      | _, _ => marks)
    ((Array.replicate e.nodes.size false).setIfInBounds e.root true)

end Expr

namespace Program

variable {α : Type}

/-- Compilation up to some index: the slot of every node so far and the instructions. -/
structure Draft (α : Type) where
  /-- Slot of every node; an unmarked node has none, and its entry is not used. -/
  slotOf : Array Nat
  /-- Instructions so far. -/
  instrs : Array (Instr α Nat)

/-- Compiles the node at the next index if it is marked. -/
def Draft.extend? [Scalar α] (featureCount : Nat) (draft : Draft α)
    (node : Node α NodeId × Bool) : Except (CompileFault α) (Draft α) :=
  if node.2 then do
    let instr ← Instr.ofNode? featureCount (node.1.map fun c => draft.slotOf.getD c 0)
    return ⟨draft.slotOf.push draft.instrs.size, draft.instrs.push instr⟩
  else .ok ⟨draft.slotOf.push draft.instrs.size, draft.instrs⟩

/-- Number of coefficients that instructions read: one more than the greatest index, as a 64-bit
word. -/
def countParams (instrs : Array (Instr α Nat)) : UInt64 :=
  instrs.foldl (fun count instr =>
    match instr with
    | .param i => if count < UInt64.ofNat i + 1 then UInt64.ofNat i + 1 else count
    | _ => count) 0

/-- Compiles a formula.  Every marked node checks the deadline before anything else. -/
def compile? [Scalar α] (options : CompileOptions α) (e : Expr α) :
    Except (CompileFault α) (Program α) := do
  e.validate.mapError .invalid
  if options.timeoutMs = 0 then throw (.timeout options.timeoutMs)
  let nodes := e.nodes.toList.zip e.marks.toList
  let draft ← nodes.foldlM (Draft.extend? options.featureCount) ⟨#[], #[]⟩
  return ⟨draft.instrs, options.featureCount, (countParams draft.instrs).toNat,
    options.divisionPlaceholder⟩

end Program

/-- Compiles a formula over doubles. -/
def Expr.compile (options : CompileOptions Float) (e : Expr Float) :
    Except Error (Program Float) :=
  (Program.compile? options e).mapError CompileFault.toError

end FormulaFit
