import FormulaFit.Proofs.Arena.Trees
import FormulaFit.Proofs.Arena.Unfolding

/-!
# Storing trees

Storing a tree appends its nodes to an arena, children before parents, and leaves what is already
there alone.  Hence the stored form of a tree stands for that tree.  Two stored formulas are the
same exactly if they stand for the same tree, however they are stored.
-/

namespace FormulaFit

variable {α : Type}

namespace Arena

/-- The trees that the nodes of an arena stand for, in index order. -/
def trees (arena : Arena α) : Array (Tree α) :=
  (⟨arena, 0⟩ : Expr α).scan fun _ n => .mk n

/-- The tree that the node at an index stands for. -/
def tree (arena : Arena α) (i : NodeId) : Tree α := arena.trees.getD i default

theorem size_trees (arena : Arena α) : arena.trees.size = arena.size := Expr.size_scan _ _

theorem trees_push (arena : Arena α) (n : Node α NodeId) :
    trees (Array.push arena n) = arena.trees.push (.mk (n.map arena.tree)) := by
  rw [trees, Expr.scan, Array.foldl_push]
  rfl

/-- Children come before their parents. -/
def Ordered (arena : Arena α) : Prop :=
  ∀ (i : NodeId) (n : Node α NodeId), arena[i]? = some n → ∀ c ∈ n.children, c < i

/-- An arena continues another, every node of which stands for the same tree. -/
structure Extends (before after : Arena α) : Prop where
  size_le : before.size ≤ after.size
  tree_eq : ∀ i, i < before.size → after.tree i = before.tree i
  /-- Where children came before their parents, they still do. -/
  ordered : before.Ordered → after.Ordered

theorem Extends.refl (arena : Arena α) : arena.Extends arena := ⟨Nat.le_refl _, fun _ _ => rfl, id⟩

theorem Extends.trans {first second third : Arena α} (before : first.Extends second)
    (after : second.Extends third) : first.Extends third where
  size_le := Nat.le_trans before.size_le after.size_le
  tree_eq i i_lt := (after.tree_eq i (Nat.lt_of_lt_of_le i_lt before.size_le)).trans
    (before.tree_eq i i_lt)
  ordered := after.ordered ∘ before.ordered

theorem extends_push {arena : Arena α} {n : Node α NodeId}
    (child_lt : ∀ c ∈ n.children, c < arena.size) :
    arena.Extends (Array.push arena n) ∧
      tree (Array.push arena n) arena.size = .mk (n.map arena.tree) := by
  refine ⟨⟨by simp, fun i i_lt => ?_, fun ordered i m found c member => ?_⟩, ?_⟩
  · have other : i ≠ arena.trees.size := size_trees arena ▸ Nat.ne_of_lt i_lt
    simp [tree, trees_push, Array.getD_eq_getD_getElem?, Array.getElem?_push, other]
  · rw [Array.getElem?_push] at found
    split at found
    · rename_i last
      obtain rfl : n = m := by simpa using found
      exact last ▸ child_lt c member
    · exact ordered i m found c member
  · simp [tree, trees_push, ← size_trees arena]

end Arena

namespace Arena

/-- From an arena on, a computation appends nodes until one stands for a tree, and gives the index
of that one. -/
structure Writes (arena : Arena α) (write : StateM (Arena α) NodeId) (t : Tree α) : Prop where
  grown : arena.Extends (write arena).2
  index_lt : (write arena).1 < (write arena).2.size
  tree_eq : (write arena).2.tree (write arena).1 = t

variable {arena : Arena α} {t u : Tree α}

theorem writes_pure {i : NodeId} (i_lt : i < arena.size) : arena.Writes (pure i) (arena.tree i) :=
  ⟨.refl arena, i_lt, rfl⟩

theorem writes_push {n : Node α NodeId} (child_lt : ∀ c ∈ n.children, c < arena.size) :
    arena.Writes (push n) (.mk (n.map arena.tree)) where
  grown := (extends_push child_lt).1
  index_lt := Nat.lt_of_lt_of_eq (Nat.lt_succ_self _) (Array.size_push _).symm
  tree_eq := (extends_push child_lt).2

/-- A computation goes on from what another one has written. -/
theorem Writes.bind {write : StateM (Arena α) NodeId} {next : NodeId → StateM (Arena α) NodeId}
    (writes : arena.Writes write t)
    (goes_on : ∀ after i, arena.Extends after → i < after.size → after.tree i = t →
      Writes after (next i) u) : arena.Writes (write >>= next) u := by
  have later := goes_on _ _ writes.grown writes.index_lt writes.tree_eq
  exact ⟨writes.grown.trans later.grown, later.index_lt, later.tree_eq⟩

end Arena

/-- Wherever children come before their parents, a computation appends nodes until one stands for a
tree. -/
def Stores (write : StateM (Arena α) NodeId) (t : Tree α) : Prop :=
  ∀ arena : Arena α, arena.Ordered → arena.Writes write t

theorem mapM_stores {writes : List (StateM (Arena α) NodeId)} {ts : List (Tree α)}
    (each : List.Forall₂ Stores writes ts) {arena : Arena α} (ordered : arena.Ordered) :
    let result := writes.mapM id arena
    arena.Extends result.2 ∧ (∀ c ∈ result.1, c < result.2.size) ∧
      result.1.map result.2.tree = ts := by
  induction each generalizing arena with
  | nil => exact ⟨.refl arena, fun _ member => absurd member List.not_mem_nil, rfl⟩
  | @cons write t writes ts stores _ ih =>
      have first := stores arena ordered
      obtain ⟨later, indices_lt, trees_eq⟩ := ih (first.grown.ordered ordered)
      rw [List.mapM_cons]
      refine ⟨first.grown.trans later, ?_, ?_⟩
      · intro c member
        rcases List.mem_cons.mp member with rfl | member
        · exact Nat.lt_of_lt_of_le first.index_lt later.size_le
        · exact indices_lt c member
      · refine List.cons_eq_cons.mpr ⟨?_, trees_eq⟩
        exact (later.tree_eq _ first.index_lt).trans first.tree_eq

/-- Wherever children come before their parents, a computation appends nodes until children stand
for those of a node over trees. -/
def StoresChildren (write : StateM (Arena α) (Node α NodeId)) (n : Node α (Tree α)) : Prop :=
  ∀ arena : Arena α, arena.Ordered → arena.Extends (write arena).2 ∧
    (∀ c ∈ (write arena).1.children, c < (write arena).2.size) ∧
    (write arena).1.map (write arena).2.tree = n

theorem storesChildren_pure {n : Node α NodeId} {m : Node α (Tree α)} (leaf : n.children = [])
    (same : ∀ arena : Arena α, n.map arena.tree = m) : StoresChildren (pure n) m := fun arena _ =>
  ⟨.refl arena, fun _ member => absurd (leaf ▸ member) List.not_mem_nil, same arena⟩

theorem Stores.children_one {write : StateM (Arena α) NodeId} {a : Tree α} (stores : Stores write a)
    (op : UnaryOp) : StoresChildren (do return .unary op (← write)) (.unary op a) := by
  intro arena ordered
  obtain ⟨grown, index_lt, tree_eq⟩ := stores arena ordered
  refine ⟨grown, fun c member => ?_, congrArg (Node.unary op) tree_eq⟩
  obtain rfl : c = (write arena).1 := List.mem_singleton.mp member
  exact index_lt

theorem Stores.children_two {first second : StateM (Arena α) NodeId} {a b : Tree α}
    (stores : Stores first a) (stores' : Stores second b) (join : NodeId → NodeId → Node α NodeId)
    {join' : Tree α → Tree α → Node α (Tree α)} (children_eq : ∀ i j, (join i j).children = [i, j])
    (map_eq : ∀ (f : NodeId → Tree α) i j, (join i j).map f = join' (f i) (f j)) :
    StoresChildren (do let i ← first; let j ← second; return join i j) (join' a b) := by
  intro arena ordered
  obtain ⟨grown, index_lt, tree_eq⟩ := stores arena ordered
  obtain ⟨grown', index_lt', tree_eq'⟩ := stores' (first arena).2 (grown.ordered ordered)
  refine ⟨grown.trans grown', fun c member => ?_, ?_⟩
  · change c ∈ (join (first arena).1 (second (first arena).2).1).children at member
    simp only [children_eq, List.mem_cons, List.not_mem_nil, or_false] at member
    rcases member with rfl | rfl
    · exact Nat.lt_of_lt_of_le index_lt grown'.size_le
    · exact index_lt'
  · refine (map_eq _ _ _).trans (congrArg₂ join' ?_ tree_eq')
    exact (grown'.tree_eq _ index_lt).trans tree_eq

theorem storesChildren_mapM {β : Type} {push : β → StateM (Arena α) NodeId} {tree : β → Tree α}
    {n : Node α β} (each : ∀ t ∈ n.children, Stores (push t) (tree t)) :
    StoresChildren ((n.map push).mapM id) (n.map tree) := by
  have all {ts : List β} (each : ∀ t ∈ ts, Stores (push t) (tree t)) :
      List.Forall₂ Stores (ts.map push) (ts.map tree) := by
    rw [List.forall₂_map_left_iff, List.forall₂_map_right_iff]
    exact List.forall₂_same.mpr each
  cases n with
  | const v => exact storesChildren_pure rfl fun _ => rfl
  | var i => exact storesChildren_pure rfl fun _ => rfl
  | param i => exact storesChildren_pure rfl fun _ => rfl
  | symbol s => exact storesChildren_pure rfl fun _ => rfl
  | unary op a => exact (each a (by simp [Node.children])).children_one op
  | binary op a b =>
      exact (each a (by simp [Node.children])).children_two (each b (by simp [Node.children]))
        (.binary op) (fun _ _ => rfl) fun _ _ _ => rfl
  | nary op args =>
      intro arena ordered
      obtain ⟨grown, indices_lt, trees_eq⟩ := mapM_stores (all each) ordered
      exact ⟨grown, indices_lt, congrArg (Node.nary op) trees_eq⟩
  | relation op a b =>
      exact (each a (by simp [Node.children])).children_two (each b (by simp [Node.children]))
        (.relation op) (fun _ _ => rfl) fun _ _ _ => rfl
  | bounds a b =>
      exact (each a (by simp [Node.children])).children_two (each b (by simp [Node.children]))
        (.bounds) (fun _ _ => rfl) fun _ _ _ => rfl
  | call name args =>
      intro arena ordered
      obtain ⟨grown, indices_lt, trees_eq⟩ := mapM_stores (all each) ordered
      exact ⟨grown, indices_lt, congrArg (Node.call name) trees_eq⟩

/-- What takes the place of a node over stored children stands for what a rule makes of their
trees. -/
def Replaces (replace : Node α NodeId → StateM (Arena α) NodeId)
    (rule : Node α (Tree α) → Tree α) : Prop :=
  ∀ (arena : Arena α) (n : Node α NodeId), arena.Ordered → (∀ c ∈ n.children, c < arena.size) →
    arena.Writes (replace n) (rule (n.map arena.tree))

theorem StoresChildren.replace {write : StateM (Arena α) (Node α NodeId)} {n : Node α (Tree α)}
    {replace : Node α NodeId → StateM (Arena α) NodeId} {rule : Node α (Tree α) → Tree α}
    (stores : StoresChildren write n) (replaces : Replaces replace rule) :
    Stores (do replace (← write)) (rule n) := by
  intro arena ordered
  obtain ⟨grown, child_lt, node_eq⟩ := stores arena ordered
  have writes := replaces _ _ (grown.ordered ordered) child_lt
  rw [node_eq] at writes
  exact ⟨grown.trans writes.grown, writes.index_lt, writes.tree_eq⟩

theorem replaces_push : Replaces (α := α) Arena.push .mk := fun _ _ _ => Arena.writes_push

namespace Tree

/-- Replacing every node of a tree, from the leaves up, stores what a rule makes of the tree. -/
theorem stores_fold {replace : Node α NodeId → StateM (Arena α) NodeId}
    {rule : Node α (Tree α) → Tree α} (replaces : Replaces replace rule) (t : Tree α) :
    Stores (t.fold fun n => do replace (← n.mapM id)) (t.fold rule) := by
  induction t using Tree.induction with
  | step n each =>
      rw [fold_mk, fold_mk]
      exact (storesChildren_mapM each).replace replaces

@[simp]
theorem fold_mk_self (t : Tree α) : t.fold .mk = t := by
  induction t using Tree.induction with
  | step n each => rw [fold_mk, Node.map_congr each, Node.map_id']

theorem stores_push (t : Tree α) : Stores t.push t := by
  have stores := stores_fold replaces_push t
  rwa [fold_mk_self] at stores

theorem writes_store (t : Tree α) : Arena.Writes #[] t.push t :=
  t.stores_push #[] fun i n found => by simp at found

/-- The stored form of a tree stands for it. -/
@[simp]
theorem unfold_store (t : Tree α) : t.store.unfold = t := t.writes_store.tree_eq

theorem root_store_lt (t : Tree α) : t.store.root < t.store.nodes.size := t.writes_store.index_lt

theorem ordered_store (t : Tree α) : t.store.nodes.Ordered :=
  t.writes_store.grown.ordered fun i n found => by simp at found

end Tree

namespace Expr

/-- Indices are the same exactly if they stand for the same tree. -/
theorem sameAt_iff [DecidableEq α] {a b : Expr α} (ordered : a.nodes.Ordered)
    (ordered' : b.nodes.Ordered) {i j : NodeId} (i_lt : i < a.nodes.size)
    (j_lt : j < b.nodes.size) : a.sameAt b i j = true ↔ a.treeAt i = b.treeAt j := by
  induction i using Nat.strongRecOn generalizing j with
  | ind i ih =>
      have found : a.nodes[i]? = some a.nodes[i] := Array.getElem?_eq_getElem i_lt
      have found' : b.nodes[j]? = some b.nodes[j] := Array.getElem?_eq_getElem j_lt
      have child_lt := ordered i _ found
      have child_lt' := ordered' j _ found'
      rw [treeAt_eq found child_lt, treeAt_eq found' child_lt', Tree.mk.injEq, Node.map_eq_map_iff,
        List.forall₂_iff_zip, sameAt, found, found']
      simp only [Bool.and_eq_true, decide_eq_true_eq, beq_iff_eq, List.all_eq_true, and_assoc]
      have pair_iff {c d : NodeId} (member : (c, d) ∈ a.nodes[i].children.zip b.nodes[j].children) :
          (if c < i then a.sameAt b c d else false) = true ↔ a.treeAt c = b.treeAt d := by
        have c_lt := child_lt c (List.of_mem_zip member).1
        have d_lt := child_lt' d (List.of_mem_zip member).2
        rw [if_pos c_lt]
        exact ih c c_lt (Nat.lt_trans c_lt i_lt) (Nat.lt_trans d_lt j_lt)
      refine and_congr_right fun _ => and_congr_right fun _ => ?_
      exact ⟨fun each c d member => (pair_iff member).mp (each (c, d) member),
        fun each pair member => (pair_iff member).mpr (each member)⟩

theorem same_iff [DecidableEq α] {a b : Expr α} (ordered : a.nodes.Ordered)
    (ordered' : b.nodes.Ordered) (root_lt : a.root < a.nodes.size)
    (root_lt' : b.root < b.nodes.size) : a.same b = true ↔ a.unfold = b.unfold :=
  sameAt_iff ordered ordered' root_lt root_lt'

end Expr

instance [DecidableEq α] : DecidableEq (Tree α) := fun t u =>
  decidable_of_iff (t.store.same u.store = true) (by
    rw [Expr.same_iff t.ordered_store u.ordered_store t.root_store_lt u.root_store_lt,
      Tree.unfold_store, Tree.unfold_store])

end FormulaFit
