import FormulaFit.Tree

/-!
# Stored formulas

A formula is stored as an arena, a sequence of nodes whose children are indices into it, together
with the index of its root.  A valid arena lists children before their parents, so everything about
it can be computed in index order: `scan` gives the value of every stored node from the values of
its children.  Nodes may be shared and may be unreachable.  `fold` goes from the root down instead
and visits a node once for every use; `rebuild` is such a walk that appends nodes to a new arena.
What the root stands for is the tree `unfold`, and `Tree.store` writes a tree back.
-/

namespace FormulaFit

/-- Index of a node in its arena.  Indices of stored data are words of 32 bits, which an arena of up
to `2 ^ 32` nodes does not exceed; `Expr.IsIndexed` is that bound. -/
abbrev NodeId := Nat

/-- Nodes whose children are indices of earlier ones. -/
abbrev Arena (α : Type) := Array (Node α NodeId)

namespace Arena

variable {α : Type}

/-- Appends a node and gives its index. -/
def push (node : Node α NodeId) : StateM (Arena α) NodeId := fun arena =>
  (arena.size, Array.push arena node)

end Arena

/-- A stored formula. -/
structure Expr (α : Type) where
  nodes : Arena α
  root : NodeId
deriving DecidableEq, Repr

/-- Appends the nodes of a tree, children before parents and from left to right. -/
def Tree.push {α : Type} : Tree α → StateM (Arena α) NodeId :=
  Tree.fold fun n => do Arena.push (← n.mapM id)

/-- The stored form of a tree: every node once, the root last. -/
def Tree.store {α : Type} (t : Tree α) : Expr α :=
  let (root, nodes) := t.push #[]
  ⟨nodes, root⟩

namespace Expr

variable {α γ : Type}

/-- The values of all stored nodes in index order, each from its index and its node over the values
of the children.  A child that is not stored earlier counts as the default value. -/
def scan [Inhabited γ] (f : NodeId → Node α γ → γ) (e : Expr α) : Array γ :=
  e.nodes.foldl (fun values n => values.push (f values.size (n.map fun c => values.getD c default)))
    #[]

/-- The value that a scan gives the root. -/
def scanRoot [Inhabited γ] (f : NodeId → Node α γ → γ) (e : Expr α) : γ :=
  (e.scan f).getD e.root default

/-- The tree that the root stands for; a shared node occurs once for every use. -/
def unfold (e : Expr α) : Tree α := e.scanRoot fun _ n => .mk n

/-- Combines what is below an index by recursion from there down, each node over the results of its
children.  A child that is not stored earlier counts as missing. -/
def foldAt (missing : γ) (f : NodeId → Node α γ → γ) (e : Expr α) (i : NodeId) : γ :=
  match e.nodes[i]? with
  | some n => f i (n.map fun c => if c < i then e.foldAt missing f c else missing)
  | none => missing
termination_by i

/-- Combines a formula from the root down.  A missing node counts as an undefined number. -/
def fold (f : Node α γ → γ) (e : Expr α) : γ := e.foldAt (f (.symbol .nan)) (fun _ => f) e.root

/-- Appends what replaces every node to a new arena, from the leaves up and from left to right; the
replacement sees the node over the indices of the replaced children. -/
def rebuildM {m : Type → Type} [Monad m] (replace : Node α NodeId → StateT (Arena α) m NodeId)
    (e : Expr α) : m (Expr α) := do
  let (root, nodes) ← (e.fold fun n => do replace (← n.mapM id)).run #[]
  return ⟨nodes, root⟩

/-- Appends what replaces every node to a new arena. -/
def rebuild (replace : Node α NodeId → StateM (Arena α) NodeId) (e : Expr α) : Expr α :=
  Id.run (e.rebuildM replace)

/-- The same formula without sharing and without unreachable nodes. -/
def compact (e : Expr α) : Expr α := e.rebuild Arena.push

/-- A formula that is one literal. -/
def constant (v : α) : Expr α := ⟨#[.const v], 0⟩

/-- The node at the top, if it is stored. -/
def rootNode? (e : Expr α) : Option (Node α NodeId) := e.nodes[e.root]?

/-- The finite literal that the whole formula is. -/
def constant? [Scalar α] (e : Expr α) : Option α := e.rootNode?.bind Node.literal?

/-- Levels on the longest path from the root to a leaf. -/
def depth (e : Expr α) : Nat := e.scanRoot fun _ n => 1 + n.children.foldl max 0

/-- Number of nodes of the tree below the root, as a 64-bit word. -/
def nodeCount (e : Expr α) : UInt64 :=
  e.scanRoot fun _ n => 1 + n.children.foldl (· + ·) 0

/-- Indices of the nodes below an index, every node before what is below it and once per use. -/
def preorderAt (e : Expr α) (i : NodeId) : List NodeId :=
  match e.nodes[i]? with
  | some n => i :: n.children.flatMap fun c => if c < i then e.preorderAt c else []
  | none => []
termination_by i

/-- Indices of the nodes below the root, every node before what is below it and once per use. -/
def preorder (e : Expr α) : List NodeId := e.preorderAt e.root

/-- The nodes at the indices of the preorder. -/
def reachable (e : Expr α) : List (Node α NodeId) := e.preorder.filterMap fun i => e.nodes[i]?

/-- Features that occur, in increasing order and each once. -/
def features (e : Expr α) : List UInt64 :=
  let occurrences := e.reachable.filterMap fun | .var i => some i | _ => none
  (occurrences.mergeSort fun i j => decide (i ≤ j)).eraseReps

/-- Number of occurrences of literals. -/
def constantCount (e : Expr α) : Nat :=
  e.reachable.countP fun | .const _ => true | _ => false

/-- Length of a vector that supplies every coefficient that occurs: one more than the greatest
index, as a 64-bit word. -/
def paramCount (e : Expr α) : UInt64 :=
  e.reachable.foldl (fun count n =>
    match n with
    | .param i => if count < i + 1 then i + 1 else count
    | _ => count) 0

/-- Some node below the root has no finite real value by itself. -/
def hasDegenerate [Scalar α] (e : Expr α) : Bool := e.reachable.any Node.isDegenerate

/-- The formulas below two indices are the same node for node, however they are stored. -/
def sameAt [DecidableEq α] (a b : Expr α) (i j : NodeId) : Bool :=
  match a.nodes[i]?, b.nodes[j]? with
  | some m, some n =>
    decide (m.head = n.head) && m.children.length == n.children.length &&
      (m.children.zip n.children).all fun (c, d) => if c < i then sameAt a b c d else false
  | _, _ => false
termination_by i

/-- Two stored formulas are the same node for node, however they are stored. -/
def same [DecidableEq α] (a b : Expr α) : Bool := a.sameAt b a.root b.root

end Expr

end FormulaFit
