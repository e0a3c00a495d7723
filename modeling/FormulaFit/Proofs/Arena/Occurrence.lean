import FormulaFit.Optimize.Lift
import FormulaFit.Proofs.Arena.Storage
import FormulaFit.Proofs.Program.Compilation

/-!
# What occurs in a formula

The preorder of a formula lists what is reachable from its root, and the heads of the reachable
nodes are those of the tree that the root stands for.  Storing a formula again keeps the tree, so it
keeps what occurs.
-/

namespace FormulaFit

variable {α : Type}

namespace Node

variable {β γ : Type}

/-- The index of the coefficient that a node is. -/
def paramIndex? : Node α β → Option UInt64
  | param i => some i
  | _ => none

@[simp]
theorem isForeign_head [Scalar α] (featureCount : Nat) (n : Node α β) :
    n.head.isForeign featureCount = n.isForeign featureCount := by
  cases n <;> rfl

end Node

theorem Tree.heads_mk (n : Node α (Tree α)) :
    (mk n).heads = n.head :: n.children.flatMap heads := by
  rw [heads, fold_mk, Node.head_map, Node.children_map]
  rfl

theorem mem_eraseReps {β : Type} [BEq β] [LawfulBEq β] {b : β} {items : List β} :
    b ∈ items.eraseReps ↔ b ∈ items := by
  have loop_iff (as kept : List β) (a : β) :
      b ∈ List.eraseRepsBy.loop (· == ·) a as kept ↔ b = a ∨ b ∈ as ∨ b ∈ kept := by
    induction as generalizing a kept with
    | nil => simp [List.eraseRepsBy.loop, or_comm]
    | cons a' as ih =>
        rw [List.eraseRepsBy.loop]
        split
        · rename_i same
          obtain rfl := eq_of_beq same
          rw [ih, List.mem_cons]
          tauto
        · rw [ih, List.mem_cons, List.mem_cons]
          tauto
  cases items with
  | nil => rfl
  | cons a as =>
      rw [List.eraseReps, List.eraseRepsBy, loop_iff]
      simp

namespace Expr

theorem Valid.ordered {e : Expr α} (valid : e.Valid) : e.nodes.Ordered :=
  fun _ _ found => valid.child_lt found

theorem mem_preorderAt_self {e : Expr α} {i : NodeId} {n : Node α NodeId}
    (found : e.nodes[i]? = some n) : i ∈ e.preorderAt i := by
  rw [preorderAt, found]
  exact List.mem_cons_self

theorem Valid.preorderAt_eq {e : Expr α} (valid : e.Valid) {i : NodeId} {n : Node α NodeId}
    (found : e.nodes[i]? = some n) : e.preorderAt i = i :: n.children.flatMap e.preorderAt := by
  rw [preorderAt, found]
  exact congrArg (i :: ·) (List.flatMap_congr fun c is_child =>
    if_pos (valid.child_lt found c is_child))

/-- Whatever the preorder lists below a reachable node is reachable. -/
theorem Reachable.of_mem_preorderAt {e : Expr α} {i j : NodeId} (reachable : e.Reachable i)
    (member : j ∈ e.preorderAt i) : e.Reachable j := by
  induction i using Nat.strongRecOn with
  | ind i ih =>
      rw [preorderAt] at member
      cases found : e.nodes[i]? with
      | none => simp [found] at member
      | some n =>
          rw [found] at member
          rcases List.mem_cons.mp member with rfl | below
          · exact reachable
          · obtain ⟨c, is_child, member⟩ := List.mem_flatMap.mp below
            by_cases c_lt : c < i
            · rw [if_pos c_lt] at member
              exact ih c c_lt (.child reachable found is_child) member
            · simp [c_lt] at member

theorem mem_preorderAt_child {e : Expr α} (valid : e.Valid) {i j c : NodeId} {n : Node α NodeId}
    (i_lt : i < e.nodes.size) (member : j ∈ e.preorderAt i) (found : e.nodes[j]? = some n)
    (is_child : c ∈ n.children) : c ∈ e.preorderAt i := by
  induction i using Nat.strongRecOn with
  | ind i ih =>
      obtain ⟨m, at_i⟩ : ∃ m, e.nodes[i]? = some m := ⟨_, Array.getElem?_eq_getElem i_lt⟩
      have below {d : NodeId} (is_child : d ∈ m.children) (member : c ∈ e.preorderAt d) :
          c ∈ e.preorderAt i := by
        rw [preorderAt, at_i]
        refine List.mem_cons_of_mem _ (List.mem_flatMap.mpr ⟨d, is_child, ?_⟩)
        rwa [if_pos (valid.child_lt at_i d is_child)]
      rw [preorderAt, at_i] at member
      rcases List.mem_cons.mp member with rfl | later
      · obtain rfl : m = n := by simpa [at_i] using found
        have c_lt : c < e.nodes.size := Nat.lt_trans (valid.child_lt at_i c is_child) i_lt
        exact below is_child (mem_preorderAt_self (Array.getElem?_eq_getElem c_lt))
      · obtain ⟨d, is_child', member⟩ := List.mem_flatMap.mp later
        have d_lt := valid.child_lt at_i d is_child'
        rw [if_pos d_lt] at member
        exact below is_child' (ih d d_lt (Nat.lt_trans d_lt i_lt) member)

/-- The nodes at the indices of the preorder are those reachable from the root. -/
theorem Valid.mem_reachable_iff {e : Expr α} (valid : e.Valid) {n : Node α NodeId} :
    n ∈ e.reachable ↔ e.Reaches n := by
  have listed {i : NodeId} (reachable : e.Reachable i) : i ∈ e.preorder := by
    induction reachable with
    | root => exact mem_preorderAt_self (Array.getElem?_eq_getElem valid.root_lt)
    | child _ found is_child ih => exact mem_preorderAt_child valid valid.root_lt ih found is_child
  rw [reachable, List.mem_filterMap]
  constructor
  · rintro ⟨i, member, found⟩
    exact ⟨i, Reachable.root.of_mem_preorderAt member, found⟩
  · rintro ⟨i, reachable, found⟩
    exact ⟨i, listed reachable, found⟩

theorem Valid.mem_features_iff {e : Expr α} (valid : e.Valid) {i : UInt64} :
    i ∈ e.features ↔ e.Reaches (.var i) := by
  rw [features, mem_eraseReps, List.mem_mergeSort, List.mem_filterMap]
  constructor
  · rintro ⟨n, member, index_eq⟩
    cases n <;> cases index_eq
    exact valid.mem_reachable_iff.mp member
  · exact fun reaches => ⟨_, valid.mem_reachable_iff.mpr reaches, rfl⟩

theorem paramCount_eq (e : Expr α) :
    e.paramCount = (e.reachable.filterMap Node.paramIndex?).foldl Program.countIndex 0 := by
  rw [paramCount, List.foldl_filterMap]
  congr 1
  funext count n
  cases n <;> rfl

theorem Reaches.head_mem_heads {e : Expr α} (ordered : e.nodes.Ordered) {n : Node α NodeId}
    (reaches : e.Reaches n) : n.head ∈ e.unfold.heads := by
  obtain ⟨i, reachable, found⟩ := reaches
  have below {i : NodeId} (reachable : e.Reachable i) :
      ∀ h ∈ (e.treeAt i).heads, h ∈ e.unfold.heads := by
    induction reachable with
    | root => exact fun h member => member
    | child _ found is_child ih =>
        intro h member
        refine ih h ?_
        rw [treeAt_eq found (ordered _ _ found), Tree.heads_mk, Node.children_map]
        exact List.mem_cons_of_mem _
          (List.mem_flatMap.mpr ⟨_, List.mem_map_of_mem is_child, member⟩)
  refine below reachable _ ?_
  rw [treeAt_eq found (ordered _ _ found), Tree.heads_mk, Node.head_map]
  exact List.mem_cons_self

/-- Every head in the tree is that of a reachable node. -/
theorem Valid.exists_reaches_of_mem_heads {e : Expr α} (valid : e.Valid) {h : Node α Unit}
    (member : h ∈ e.unfold.heads) : ∃ n, e.Reaches n ∧ n.head = h := by
  have below {i : NodeId} (reachable : e.Reachable i) :
      ∀ h ∈ (e.treeAt i).heads, ∃ n, e.Reaches n ∧ n.head = h := by
    refine valid.reachable_induction
      (P := fun i => ∀ h ∈ (e.treeAt i).heads, ∃ n, e.Reaches n ∧ n.head = h) ?_ reachable
    intro i n reachable found children h member
    rw [valid.treeAt_eq found, Tree.heads_mk, Node.head_map, Node.children_map] at member
    rcases List.mem_cons.mp member with rfl | later
    · exact ⟨n, ⟨i, reachable, found⟩, rfl⟩
    · obtain ⟨t, member, below⟩ := List.mem_flatMap.mp later
      obtain ⟨c, is_child, rfl⟩ := List.mem_map.mp member
      exact children c is_child h below
  exact below .root h member

end Expr

end FormulaFit
