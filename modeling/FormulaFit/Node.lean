import FormulaFit.Operator

/-!
# Nodes

One node of a formula over children of any type.  An arena stores nodes over indices, a tree nests
nodes over trees, and a pass over a formula works on nodes over the results of the children.
-/

namespace FormulaFit

/-- One node of a formula with literals in `α` and children in `β`. -/
inductive Node (α β : Type) where
  /-- A numeric literal. -/
  | const (v : α)
  /-- The input feature of a column. -/
  | var (index : UInt64)
  /-- A free coefficient. -/
  | param (index : UInt64)
  /-- A named value. -/
  | symbol (s : Symbol)
  | unary (op : UnaryOp) (a : β)
  | binary (op : BinaryOp) (a b : β)
  | nary (op : NaryOp) (args : List β)
  /-- A comparison whose truth depends on the inputs. -/
  | relation (op : Comparison) (a b : β)
  /-- Any value between two bounds, such as the limit of an oscillation. -/
  | bounds (low high : β)
  /-- A function outside the vocabulary. -/
  | call (name : String) (args : List β)
deriving DecidableEq, Repr

namespace Node

variable {α β γ : Type}

/-- The children, from left to right. -/
def children : Node α β → List β
  | const _ | var _ | param _ | symbol _ => []
  | unary _ a => [a]
  | binary _ a b | relation _ a b | bounds a b => [a, b]
  | nary _ args | call _ args => args

/-- The same node over other children. -/
def map (f : β → γ) : Node α β → Node α γ
  | const v => const v
  | var i => var i
  | param i => param i
  | symbol s => symbol s
  | unary op a => unary op (f a)
  | binary op a b => binary op (f a) (f b)
  | nary op args => nary op (args.map f)
  | relation op a b => relation op (f a) (f b)
  | bounds a b => bounds (f a) (f b)
  | call name args => call name (args.map f)

/-- The same node over children obtained one after the other, from left to right. -/
def mapM {m : Type → Type} [Monad m] (f : β → m γ) : Node α β → m (Node α γ)
  | const v => pure (const v)
  | var i => pure (var i)
  | param i => pure (param i)
  | symbol s => pure (symbol s)
  | unary op a => do return unary op (← f a)
  | binary op a b => do
    let a ← f a
    let b ← f b
    return binary op a b
  | nary op args => do return nary op (← args.mapM f)
  | relation op a b => do
    let a ← f a
    let b ← f b
    return relation op a b
  | bounds a b => do
    let a ← f a
    let b ← f b
    return bounds a b
  | call name args => do return call name (← args.mapM f)

/-- The node without its children: what it is, apart from what it is applied to. -/
def head (n : Node α β) : Node α Unit :=
  match n with
  | nary op _ => nary op []
  | call name _ => call name []
  | n => n.map fun _ => ()

/-- The node has no children by its kind. -/
def isLeaf : Node α β → Bool
  | const _ | var _ | param _ | symbol _ => true
  | _ => false

/-- The finite literal that the node is. -/
def literal? [Scalar α] : Node α β → Option α
  | const v => if Scalar.isFinite v then some v else none
  | _ => none

/-- The node has no finite real value by itself. -/
def isDegenerate [Scalar α] : Node α β → Bool
  | const v => !Scalar.isFinite v
  | symbol s => s ≠ .pi
  | relation .. | bounds .. => true
  | _ => false

@[simp]
theorem children_map (f : β → γ) (n : Node α β) : (n.map f).children = n.children.map f := by
  cases n <;> rfl

@[simp]
theorem map_id' (n : Node α β) : (n.map fun c => c) = n := by
  cases n <;> simp [map]

@[simp]
theorem map_map {δ : Type} (g : γ → δ) (f : β → γ) (n : Node α β) :
    (n.map f).map g = n.map (g ∘ f) := by
  cases n <;> simp [map]

theorem map_congr {f g : β → γ} {n : Node α β} (h : ∀ c ∈ n.children, f c = g c) :
    n.map f = n.map g := by
  cases n <;> simp_all [map, children]

end Node

end FormulaFit
