import FormulaFit.Expr.Basic

/-!
# Validity of stored formulas

Data from outside may name nodes that do not exist or come later.  `validate` accepts an arena if
its root is stored, every child comes before its parent, every operator of any number of operands
has one, and the formula is not nested too deeply; everything else about formulas assumes this.
-/

namespace FormulaFit

/-- Deepest nesting of a formula that is read or worked on. -/
def depthLimit : Nat := 200

/-- Why a stored formula is not valid. -/
inductive ExprFault where
  | rootOutside (root count : Nat)
  | childNotBefore (parent child : NodeId)
  | noOperands (index : NodeId) (op : NaryOp)
  | tooDeep (depth limit : Nat)
deriving DecidableEq, Repr

/-- Says what is wrong and where. -/
def ExprFault.message : ExprFault → String
  | rootOutside root count => s!"root {root} outside arena of {count} nodes"
  | childNotBefore parent child => s!"node {parent} references non-preceding child {child}"
  | noOperands index op => s!"node {index}: {op.tag} without operands"
  | tooDeep depth limit => s!"nesting depth {depth} exceeds {limit}"

namespace Expr

variable {α : Type}

/-- What is wrong with the node at an index; a misplaced child comes first. -/
def nodeFault? (index : NodeId) (n : Node α NodeId) : Option ExprFault :=
  match n.children.find? fun c => decide (index ≤ c) with
  | some child => some (.childNotBefore index child)
  | none =>
    match n with
    | .nary op [] => some (.noOperands index op)
    | _ => none

/-- Accepts a valid formula and names the first fault of any other: the root, then the nodes in
index order, then the depth. -/
def validate (e : Expr α) : Except ExprFault Unit :=
  if e.nodes.size ≤ e.root then .error (.rootOutside e.root e.nodes.size)
  else
    match e.nodes.toList.zipIdx.findSome? fun (n, i) => nodeFault? i n with
    | some fault => .error fault
    | none =>
      if depthLimit < e.depth then .error (.tooDeep e.depth depthLimit) else .ok ()

end Expr

end FormulaFit
