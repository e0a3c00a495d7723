import FormulaFit.Proofs.Arena.Storage

/-!
# Terms and their trees

What a text says, apart from how it is stored.  A term is a tree with one abbreviation: `clip` keeps
a value between two bounds.  A term stands for a tree, and storing it makes the root stand for that
tree, although the operators of a clip are stored behind all of its arguments.
-/

namespace FormulaFit

/-- A formula as it is written. -/
inductive Term where
  /-- A node over the terms below it. -/
  | node (root : Node Float Term)
  /-- A value kept between two bounds. -/
  | clip (value low high : Term)

namespace Term

variable {γ : Type}

mutual

/-- Combines the term bottom-up. -/
def fold (f : Node Float γ → γ) (g : γ → γ → γ → γ) : Term → γ
  | node (.const v) => f (.const v)
  | node (.var i) => f (.var i)
  | node (.param i) => f (.param i)
  | node (.symbol s) => f (.symbol s)
  | node (.unary op a) => f (.unary op (fold f g a))
  | node (.binary op a b) => f (.binary op (fold f g a) (fold f g b))
  | node (.nary op args) => f (.nary op (foldEach f g args))
  | node (.relation op a b) => f (.relation op (fold f g a) (fold f g b))
  | node (.bounds a b) => f (.bounds (fold f g a) (fold f g b))
  | node (.call name args) => f (.call name (foldEach f g args))
  | clip value low high => g (fold f g value) (fold f g low) (fold f g high)

/-- Combines each term of a list. -/
def foldEach (f : Node Float γ → γ) (g : γ → γ → γ → γ) : List Term → List γ
  | [] => []
  | t :: ts => fold f g t :: foldEach f g ts

end

/-- The tree that the term stands for. -/
def tree : Term → Tree Float :=
  fold .mk fun value low high => .mk (.nary .min [.mk (.nary .max [value, low]), high])

/-- Appends the nodes of a term, children before parents and from left to right. -/
def push : Term → StateM (Arena Float) NodeId :=
  fold (fun n => do Arena.push (← n.mapM id)) fun value low high => do
    let value ← value
    let low ← low
    let high ← high
    let floor ← Arena.push (.nary .max [value, low])
    Arena.push (.nary .min [floor, high])

/-- The stored form of a term. -/
def store (t : Term) : Expr Float :=
  let (root, nodes) := t.push #[]
  ⟨nodes, root⟩

theorem foldEach_eq_map (f : Node Float γ → γ) (g : γ → γ → γ → γ) (ts : List Term) :
    foldEach f g ts = ts.map (fold f g) := by
  induction ts with
  | nil => rfl
  | cons t ts ih => rw [foldEach, ih, List.map_cons]

theorem fold_node (f : Node Float γ → γ) (g : γ → γ → γ → γ) (n : Node Float Term) :
    (node n).fold f g = f (n.map (fold f g)) := by
  cases n <;> simp [fold, Node.map, foldEach_eq_map]

mutual

/-- What passes from the children to every node, and from the arguments to every clip, holds of
every term. -/
theorem induction {P : Term → Prop}
    (step : ∀ n : Node Float Term, (∀ t ∈ n.children, P t) → P (node n))
    (clipped : ∀ value low high, P value → P low → P high → P (clip value low high)) : ∀ t, P t
  | node (.const _) => step _ (by simp [Node.children])
  | node (.var _) => step _ (by simp [Node.children])
  | node (.param _) => step _ (by simp [Node.children])
  | node (.symbol _) => step _ (by simp [Node.children])
  | node (.unary _ a) => step _ (by simpa [Node.children] using induction step clipped a)
  | node (.binary _ a b) => step _ (by
      simpa [Node.children] using ⟨induction step clipped a, induction step clipped b⟩)
  | node (.nary _ args) => step _ (by simpa [Node.children] using inductionEach step clipped args)
  | node (.relation _ a b) => step _ (by
      simpa [Node.children] using ⟨induction step clipped a, induction step clipped b⟩)
  | node (.bounds a b) => step _ (by
      simpa [Node.children] using ⟨induction step clipped a, induction step clipped b⟩)
  | node (.call _ args) => step _ (by simpa [Node.children] using inductionEach step clipped args)
  | clip value low high => clipped value low high (induction step clipped value)
      (induction step clipped low) (induction step clipped high)

theorem inductionEach {P : Term → Prop}
    (step : ∀ n : Node Float Term, (∀ t ∈ n.children, P t) → P (node n))
    (clipped : ∀ value low high, P value → P low → P high → P (clip value low high)) :
    ∀ ts : List Term, ∀ t ∈ ts, P t
  | [] => by simp
  | t :: ts => by simpa using ⟨induction step clipped t, inductionEach step clipped ts⟩

end

theorem push_node (n : Node Float Term) :
    (node n).push = (do Arena.push (← (n.map push).mapM id)) := fold_node _ _ n

theorem tree_node (n : Node Float Term) : (node n).tree = .mk (n.map tree) := fold_node _ _ n

theorem tree_clip (value low high : Term) : (clip value low high).tree =
    .mk (.nary .min [.mk (.nary .max [value.tree, low.tree]), high.tree]) := rfl

/-- The term without abbreviations. -/
def ofTree : Tree Float → Term := Tree.fold node

theorem ofTree_mk (n : Node Float (Tree Float)) : ofTree (.mk n) = node (n.map ofTree) :=
  Tree.fold_mk node n

theorem tree_ofTree (t : Tree Float) : (ofTree t).tree = t := by
  induction t using Tree.induction with
  | step n each =>
      rw [ofTree_mk, tree_node, Node.map_map]
      exact congrArg Tree.mk ((Node.map_congr each).trans n.map_id')

theorem stores_clip {value low high : StateM (Arena Float) NodeId} {a b c : Tree Float}
    (first : Stores value a) (second : Stores low b) (third : Stores high c) :
    Stores (do
      let value ← value
      let low ← low
      let high ← high
      let floor ← Arena.push (.nary .max [value, low])
      Arena.push (.nary .min [floor, high]))
      (.mk (.nary .min [.mk (.nary .max [a, b]), c])) := by
  intro arena ordered
  obtain ⟨grown, index_lt, tree_eq⟩ := first arena ordered
  have ordered' := grown.ordered ordered
  obtain ⟨grown', index_lt', tree_eq'⟩ := second (value arena).2 ordered'
  obtain ⟨grown'', index_lt'', tree_eq''⟩ := third (low (value arena).2).2 (grown'.ordered ordered')
  let stored := (high (low (value arena).2).2).2
  let floor : Node Float NodeId := .nary .max [(value arena).1, (low (value arena).2).1]
  let clip : Node Float NodeId := .nary .min [stored.size, (high (low (value arena).2).2).1]
  have later := grown'.trans grown''
  have floor_children : ∀ c ∈ floor.children, c < stored.size := by
    simpa [floor, Node.children] using
      ⟨Nat.lt_of_lt_of_le index_lt later.size_le, Nat.lt_of_lt_of_le index_lt' grown''.size_le⟩
  have clip_children : ∀ c ∈ clip.children, c < (Array.push stored floor).size := by
    simpa [clip, Node.children] using Nat.lt_succ_of_lt index_lt''
  obtain ⟨floor_grown, floor_eq⟩ := Arena.extends_push floor_children
  obtain ⟨clip_grown, clip_eq⟩ := Arena.extends_push clip_children
  refine ⟨((grown.trans later).trans floor_grown).trans clip_grown, ?_, ?_⟩
  · exact Nat.lt_of_lt_of_eq (Nat.lt_succ_self _) (Array.size_push _).symm
  · refine clip_eq.trans ?_
    simp only [clip, floor, Node.map, List.map_cons, List.map_nil] at floor_eq ⊢
    rw [floor_eq, floor_grown.tree_eq _ index_lt'', tree_eq'']
    rw [later.tree_eq _ index_lt, tree_eq, grown''.tree_eq _ index_lt', tree_eq']

theorem stores_push (t : Term) : Stores t.push t.tree := by
  induction t using Term.induction with
  | step n each =>
      rw [push_node, tree_node]
      exact (storesChildren_mapM each).replace replaces_push
  | clipped value low high first second third => exact stores_clip first second third

theorem writes_store (t : Term) : Arena.Writes #[] t.push t.tree :=
  t.stores_push #[] fun i n found => by simp at found

/-- The stored form of a term stands for its tree. -/
theorem unfold_store (t : Term) : t.store.unfold = t.tree := t.writes_store.tree_eq

theorem root_store_lt (t : Term) : t.store.root < t.store.nodes.size := t.writes_store.index_lt

theorem ordered_store (t : Term) : t.store.nodes.Ordered :=
  t.writes_store.grown.ordered fun i n found => by simp at found

end Term

end FormulaFit
