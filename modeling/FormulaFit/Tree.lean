import FormulaFit.Node

/-!
# Formula trees

A formula as a nested tree.  `fold` is the one way to consume it: it replaces every node by the
result of a function of the node over the results of its children.  `fold_mk` states the rule and
`Tree.induction` the matching principle of proof.
-/

namespace FormulaFit

-- Sums start from the numeral zero, whatever else is imported.
attribute [local instance (high)] Zero.ofOfNat0

/-- A formula with literals in `α`. -/
inductive Tree (α : Type) where
  /-- A node over the trees below it. -/
  | mk (root : Node α (Tree α))

namespace Tree

variable {α γ : Type}

instance : Inhabited (Tree α) := ⟨mk (.symbol .nan)⟩

/-- The node at the top. -/
def root : Tree α → Node α (Tree α)
  | mk n => n

mutual

/-- Combines the tree bottom-up. -/
def fold (f : Node α γ → γ) : Tree α → γ
  | mk (.const v) => f (.const v)
  | mk (.var i) => f (.var i)
  | mk (.param i) => f (.param i)
  | mk (.symbol s) => f (.symbol s)
  | mk (.unary op a) => f (.unary op (fold f a))
  | mk (.binary op a b) => f (.binary op (fold f a) (fold f b))
  | mk (.nary op args) => f (.nary op (foldEach f args))
  | mk (.relation op a b) => f (.relation op (fold f a) (fold f b))
  | mk (.bounds a b) => f (.bounds (fold f a) (fold f b))
  | mk (.call name args) => f (.call name (foldEach f args))

/-- Combines each tree of a list. -/
def foldEach (f : Node α γ → γ) : List (Tree α) → List γ
  | [] => []
  | t :: ts => fold f t :: foldEach f ts

end

theorem foldEach_eq_map (f : Node α γ → γ) (ts : List (Tree α)) :
    foldEach f ts = ts.map (fold f) := by
  induction ts with
  | nil => rfl
  | cons t ts ih => rw [foldEach, ih, List.map_cons]

/-- A tree is combined by combining its children and then the node over the results. -/
theorem fold_mk (f : Node α γ → γ) (n : Node α (Tree α)) :
    (mk n).fold f = f (n.map (fold f)) := by
  cases n <;> simp [fold, Node.map, foldEach_eq_map]

mutual

/-- What passes from the children to every node holds of every tree. -/
theorem induction {P : Tree α → Prop}
    (step : ∀ n : Node α (Tree α), (∀ t ∈ n.children, P t) → P (mk n)) : ∀ t, P t
  | mk (.const _) => step _ (by simp [Node.children])
  | mk (.var _) => step _ (by simp [Node.children])
  | mk (.param _) => step _ (by simp [Node.children])
  | mk (.symbol _) => step _ (by simp [Node.children])
  | mk (.unary _ a) => step _ (by simpa [Node.children] using induction step a)
  | mk (.binary _ a b) => step _ (by
      simpa [Node.children] using ⟨induction step a, induction step b⟩)
  | mk (.nary _ args) => step _ (by simpa [Node.children] using inductionEach step args)
  | mk (.relation _ a b) => step _ (by
      simpa [Node.children] using ⟨induction step a, induction step b⟩)
  | mk (.bounds a b) => step _ (by
      simpa [Node.children] using ⟨induction step a, induction step b⟩)
  | mk (.call _ args) => step _ (by simpa [Node.children] using inductionEach step args)

/-- What passes from the children to every node holds of every tree of a list. -/
theorem inductionEach {P : Tree α → Prop}
    (step : ∀ n : Node α (Tree α), (∀ t ∈ n.children, P t) → P (mk n)) :
    ∀ ts : List (Tree α), ∀ t ∈ ts, P t
  | [] => by simp
  | t :: ts => by simpa using ⟨induction step t, inductionEach step ts⟩

end

/-- Number of nodes. -/
def size : Tree α → Nat := fold fun n => 1 + n.children.sum

/-- Levels on the longest path from the root to a leaf; a lone leaf has one. -/
def depth : Tree α → Nat := fold fun n => 1 + n.children.foldl max 0

/-- The nodes without their children, every node before what is below it. -/
def heads : Tree α → List (Node α Unit) := fold fun n => n.head :: n.children.flatten

end Tree

end FormulaFit
