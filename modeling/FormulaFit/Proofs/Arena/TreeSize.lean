import FormulaFit.Proofs.Arena.Layout
import FormulaFit.Proofs.Arena.Sharing
import FormulaFit.Proofs.Optimize.Budgets
import FormulaFit.Refine.Config

/-!
# The size of the tree of a formula

The nodes of a formula are counted in 64-bit words, in one pass over the arena.  Validity bounds the
depth of a formula but not how often a node is shared, so that a few nodes can stand for a tree of
more nodes than there are words.  The count is the size of the tree up to the wrapping around of
words, and the pass wraps around exactly if some stored node, reachable or not, stands for a tree
that large.
-/

namespace FormulaFit

open Budget (add? narrow?)

variable {α : Type}

namespace Budget

theorem add?_eq_narrow? (a b : UInt64) : add? a b = narrow? (a.toNat + b.toNat) := by
  rw [add?, narrow?, UInt64.ofNat_add, UInt64.ofNat_toNat, UInt64.ofNat_toNat]

theorem narrow?_toNat (a : UInt64) : narrow? a.toNat = some a := by
  rw [narrow?_eq_some a.toNat_lt, UInt64.ofNat_toNat]

theorem foldl_ofNat (ns : List Nat) (start : Nat) :
    (ns.map UInt64.ofNat).foldl (· + ·) (UInt64.ofNat start) = UInt64.ofNat (start + ns.sum) := by
  induction ns generalizing start with
  | nil => rfl
  | cons n ns ih =>
      rw [List.map_cons, List.foldl_cons, ← UInt64.ofNat_add, ih, List.sum_cons, Nat.add_assoc]

theorem foldlM_add? {ns : List Nat} (words : ∀ n ∈ ns, n < UInt64.size) (start : UInt64) :
    (ns.map UInt64.ofNat).foldlM add? start = narrow? (start.toNat + ns.sum) := by
  induction ns generalizing start with
  | nil => exact (narrow?_toNat start).symm
  | cons n ns ih =>
      obtain ⟨n_word, words⟩ := List.forall_mem_cons.mp words
      rw [List.map_cons, List.foldlM_cons, add?_eq_narrow?, toNat_ofNat_of_lt n_word,
        List.sum_cons, ← Nat.add_assoc]
      by_cases fits : start.toNat + n < UInt64.size
      · rw [narrow?_eq_some fits]
        change (ns.map UInt64.ofNat).foldlM add? _ = _
        rw [ih words, toNat_ofNat_of_lt fits]
      · rw [narrow?, narrow?, if_neg fits, if_neg (by omega)]
        rfl

end Budget

/-- A computation appends some number of nodes. -/
def Appends {γ : Type} (write : StateM (Arena α) γ) (count : Nat) : Prop :=
  ∀ arena, (write arena).2.size = arena.size + count

theorem appends_mapM {writes : List (StateM (Arena α) NodeId)} {counts : List Nat}
    (each : List.Forall₂ Appends writes counts) : Appends (writes.mapM id) counts.sum := by
  induction each with
  | nil => exact fun arena => rfl
  | @cons write count writes counts first _ ih =>
      intro arena
      rw [List.mapM_cons, List.sum_cons, ← Nat.add_assoc, ← first arena]
      exact ih (write arena).2

/-- A node is appended behind what is written for its children. -/
theorem appends_node {β : Type} {push : β → StateM (Arena α) NodeId} {size : β → Nat}
    {n : Node α β} (each : ∀ c ∈ n.children, Appends (push c) (size c)) :
    Appends (do Arena.push (← (n.map push).mapM id)) (1 + (n.children.map size).sum) := by
  intro arena
  have pushes : List.Forall₂ Appends (n.map push).children (n.children.map size) := by
    rw [Node.children_map, List.forall₂_map_left_iff, List.forall₂_map_right_iff,
      List.forall₂_same]
    exact each
  have children := appends_mapM pushes arena
  rw [← Node.mapM_children] at children
  change (Array.push ((n.map push).mapM id arena).2 _).size = _
  dsimp only at children
  rw [Array.size_push, children]
  omega

namespace Tree

theorem size_mk (n : Node α (Tree α)) : (mk n).size = 1 + (n.children.map size).sum := by
  rw [size, fold_mk, Node.children_map]

theorem fold_count (t : Tree α) :
    t.fold (fun n => 1 + n.children.foldl (· + ·) 0) = UInt64.ofNat t.size := by
  induction t using Tree.induction with
  | step n ih =>
      have below : n.children.map (fold fun n => 1 + n.children.foldl (· + ·) 0) =
          (n.children.map size).map UInt64.ofNat := by
        rw [List.map_map]
        exact List.map_congr_left ih
      have total := Budget.foldl_ofNat (n.children.map size) 0
      rw [Nat.zero_add] at total
      rw [fold_mk, size_mk, Node.children_map, below, UInt64.ofNat_add]
      exact congrArg (1 + ·) total

theorem length_heads (t : Tree α) : t.heads.length = t.size := by
  induction t using Tree.induction with
  | step n ih =>
      rw [heads_mk, size_mk, List.length_cons, List.length_flatMap, Nat.add_comm,
        List.map_congr_left ih]

theorem appends_push (t : Tree α) : Appends t.push t.size := by
  induction t using Tree.induction with
  | step n each =>
      rw [push, fold_mk, size_mk]
      exact appends_node each

theorem size_store (t : Tree α) : t.store.nodes.size = t.size :=
  (t.appends_push #[]).trans (Nat.zero_add t.size)

end Tree

namespace Expr

variable {e : Expr α}

/-- Appends the size of the tree of the next node, in checked arithmetic. -/
def countNext? (sizes : Array UInt64) (n : Node α NodeId) : Option (Array UInt64) := do
  let below ← (n.children.map fun c => sizes.getD c 0).foldlM add? 0
  return sizes.push (← add? 1 below)

/-- The sizes of the trees of all stored nodes in index order, in checked arithmetic: none as soon
as a sum is not a word. -/
def checkedSizes? (e : Expr α) : Option (Array UInt64) := e.nodes.foldlM countNext? #[]

/-- The count is the size of the tree, wrapped around. -/
theorem Valid.nodeCount_eq (valid : e.Valid) : e.nodeCount = UInt64.ofNat e.unfold.size :=
  (scan_eq_fold _ valid.ordered valid.root_lt).trans e.unfold.fold_count

/-- The sizes of the trees of the nodes before an index. -/
def sizesBefore (e : Expr α) (k : NodeId) : Array UInt64 :=
  ((List.range k).map fun i => UInt64.ofNat (e.treeAt i).size).toArray

theorem sizesBefore_succ (e : Expr α) (k : NodeId) :
    e.sizesBefore (k + 1) = (e.sizesBefore k).push (UInt64.ofNat (e.treeAt k).size) := by
  simp [sizesBefore, List.range_succ]

theorem Valid.countNext?_eq (valid : e.Valid) {k : NodeId} {n : Node α NodeId}
    (found : e.nodes[k]? = some n) (words : ∀ i < k, (e.treeAt i).size < UInt64.size) :
    countNext? (e.sizesBefore k) n =
      (narrow? (e.treeAt k).size).map (e.sizesBefore k).push := by
  have below : (n.children.map fun c => (e.sizesBefore k).getD c 0) =
      (n.children.map fun c => (e.treeAt c).size).map UInt64.ofNat := by
    rw [List.map_map]
    refine List.map_congr_left fun c is_child => ?_
    have c_lt := valid.child_lt found c is_child
    simp [sizesBefore, Array.getD_eq_getD_getElem?, c_lt]
  have sizes : (e.treeAt k).size = 1 + (n.children.map fun c => (e.treeAt c).size).sum := by
    rw [valid.treeAt_eq found, Tree.size_mk, Node.children_map, List.map_map]
    rfl
  have child_words : ∀ size ∈ n.children.map fun c => (e.treeAt c).size, size < UInt64.size := by
    intro size member
    obtain ⟨c, is_child, rfl⟩ := List.mem_map.mp member
    exact words c (valid.child_lt found c is_child)
  rw [countNext?, below, Budget.foldlM_add? child_words, sizes]
  change (narrow? (0 + _) >>= _) = _
  rw [Nat.zero_add]
  generalize (n.children.map fun c => (e.treeAt c).size).sum = total
  by_cases fits : total < UInt64.size
  · rw [Budget.narrow?_eq_some fits]
    change (add? 1 (UInt64.ofNat total) >>= _) = _
    rw [Budget.add?_eq_narrow?, Budget.toNat_ofNat_of_lt fits]
    change (narrow? (1 + total) >>= _) = _
    cases narrow? (1 + total) <;> rfl
  · have above : ¬1 + total < UInt64.size := by omega
    rw [narrow?, narrow?, if_neg fits, if_neg above]
    rfl

theorem Valid.countNext?_take_iff (valid : e.Valid) {k : NodeId} (k_le : k ≤ e.nodes.size)
    {sizes : Array UInt64} :
    (e.nodes.toList.take k).foldlM countNext? #[] = some sizes ↔
      (∀ i < k, (e.treeAt i).size < UInt64.size) ∧ sizes = e.sizesBefore k := by
  induction k generalizing sizes with
  | zero =>
      have none_before : ∀ i < 0, (e.treeAt i).size < UInt64.size := fun i i_lt =>
        absurd i_lt (Nat.not_lt_zero i)
      exact ⟨fun counted => ⟨none_before, (Option.some.inj counted).symm⟩,
        fun counted => congrArg some counted.2.symm⟩
  | succ k ih =>
      have found : e.nodes[k]? = some e.nodes[k] := Array.getElem?_eq_getElem k_le
      have taken : e.nodes.toList.take (k + 1) = e.nodes.toList.take k ++ [e.nodes[k]] := by
        rw [List.take_add_one, Array.getElem?_toList, found]
        rfl
      rw [taken, List.foldlM_append, Option.bind_eq_bind, Option.bind_eq_some_iff]
      simp only [ih (Nat.le_of_succ_le k_le), List.foldlM_cons, List.foldlM_nil,
        Option.bind_eq_bind, Option.pure_def]
      rw [e.sizesBefore_succ, Nat.forall_lt_succ_right]
      constructor
      · rintro ⟨before, ⟨words, rfl⟩, counted⟩
        rw [valid.countNext?_eq found words, narrow?] at counted
        split at counted
        · rename_i word
          exact ⟨⟨words, word⟩, (Option.some.inj counted).symm⟩
        · cases counted
      · rintro ⟨⟨words, word⟩, rfl⟩
        refine ⟨_, ⟨words, rfl⟩, ?_⟩
        rw [valid.countNext?_eq found words, Budget.narrow?_eq_some word]
        rfl

/-- The checked sizes are the sizes, and are there if and only if these are words. -/
theorem Valid.checkedSizes?_eq_some_iff (valid : e.Valid) {sizes : Array UInt64} :
    e.checkedSizes? = some sizes ↔
      (∀ i < e.nodes.size, (e.treeAt i).size < UInt64.size) ∧ sizes = e.sizesBefore e.nodes.size := by
  have counted := @Valid.countNext?_take_iff _ _ valid e.nodes.size (Nat.le_refl _) sizes
  rwa [List.take_of_length_le (Nat.le_of_eq Array.length_toList), Array.foldlM_toList] at counted

theorem Valid.isSome_checkedSizes?_iff (valid : e.Valid) :
    e.checkedSizes?.isSome = true ↔ ∀ i < e.nodes.size, (e.treeAt i).size < UInt64.size := by
  rw [Option.isSome_iff_exists]
  exact ⟨fun ⟨_, defined⟩ => (valid.checkedSizes?_eq_some_iff.mp defined).1,
    fun words => ⟨_, valid.checkedSizes?_eq_some_iff.mpr ⟨words, rfl⟩⟩⟩

theorem Valid.length_preorder_eq_size (valid : e.Valid) : e.preorder.length = e.unfold.size := by
  rw [valid.length_preorder, Tree.length_heads]

theorem IsCompact.reachable (compact : e.IsCompact) (valid : e.Valid) {i : NodeId}
    (i_lt : i < e.nodes.size) : e.Reachable i := by
  have last : e.nodes.size = e.root + 1 := compact.root_last.symm
  have climbs (gap : Nat) : ∀ i : NodeId, i < e.nodes.size → e.root < i + gap → e.Reachable i := by
    induction gap with
    | zero =>
        intro i i_lt above
        rw [last] at i_lt
        exact absurd above (Nat.not_lt.mpr (Nat.le_of_lt_succ i_lt))
    | succ gap ih =>
        intro i i_lt above
        rw [last] at i_lt
        rcases Nat.lt_or_eq_of_le (Nat.le_of_lt_succ i_lt) with before | rfl
        · have used : 0 < e.nodes.uses i := compact.uses_eq_one i before ▸ Nat.one_pos
          obtain ⟨n, member, is_child⟩ := List.mem_flatMap.mp (List.count_pos_iff.mp used)
          obtain ⟨j, found⟩ := Array.getElem?_of_mem (Array.mem_toList_iff.mp member)
          have succ_le : i + (gap + 1) ≤ j + gap := by
            rw [Nat.add_comm gap 1, ← Nat.add_assoc]
            exact Nat.add_le_add_right (valid.child_lt found i is_child) gap
          have j_lt := (Array.getElem?_eq_some_iff.mp found).1
          exact .child (ih j j_lt (Nat.lt_of_lt_of_le above succ_le)) found is_child
        · exact .root
  exact climbs (e.root + 1) i i_lt (Nat.lt_of_lt_of_le (Nat.lt_succ_self _) (Nat.le_add_left _ i))

/-- The pass over an accepted formula gives the number of nodes of its tree, which the preorder
lists and the compact form stores, up to the wrapping around of words.  Hence it is the size exactly
for trees of fewer nodes than there are words, and no sum wraps around exactly if all stored nodes
stand for such trees. -/
theorem nodeCount_exact_iff (e : Expr α) (accepted : e.validate = .ok ()) :
    e.preorder.length = e.unfold.size ∧ e.compact.nodes.size = e.unfold.size ∧
      (∀ metric, e.complexity metric = e.unfold.size % UInt64.size) ∧
      (e.nodeCount.toNat = e.unfold.size ↔ e.unfold.size < UInt64.size) ∧
      (e.checkedSizes?.isSome = true ↔
        ∀ i < e.nodes.size, (e.treeAt i).size < UInt64.size) := by
  have valid := (validate_eq_ok_iff e).mp accepted
  have counted : e.nodeCount.toNat = e.unfold.size % UInt64.size := by
    rw [valid.nodeCount_eq, UInt64.toNat_ofNat']
  have stored : e.compact.nodes.size = e.unfold.size := by rw [compact_eq, Tree.size_store]
  refine ⟨valid.length_preorder_eq_size, stored, fun metric => ?_, ?_,
    valid.isSome_checkedSizes?_iff⟩
  · cases metric
    exact counted
  · rw [counted]
    exact Nat.mod_eq_iff_lt (by decide)

/-- `(x_0 + x_0)*(x_0 + x_0)`, stored with every part once. -/
def sharedSquare : Expr Float := ⟨#[.var 0, .nary .add [0, 0], .nary .mul [1, 1]], 2⟩

theorem sharedSquare_exact :
    sharedSquare.validate = .ok () ∧ sharedSquare.nodeCount = 7 ∧
      sharedSquare.preorder.length = 7 ∧ sharedSquare.compact.nodes.size = 7 := by
  obtain ⟨length_eq, size_eq, -, -, -⟩ := nodeCount_exact_iff sharedSquare rfl
  have size : sharedSquare.unfold.size = 7 := by decide +kernel
  exact ⟨rfl, rfl, length_eq.trans size, size_eq.trans size⟩

/-- A feature, added to itself over and over. -/
def doubled (levels : Nat) : Expr Float :=
  ⟨#[.var 0] ++ ((List.range levels).map fun i => .nary .add [i, i]).toArray, levels⟩

theorem size_treeAt_doubled {levels i : Nat} (i_le : i ≤ levels) :
    ((doubled levels).treeAt i).size + 1 = 2 ^ (i + 1) := by
  induction i with
  | zero =>
      have found : (doubled levels).nodes[0]? = some (.var 0) := by simp [doubled]
      rw [treeAt_eq found fun c is_child => absurd is_child List.not_mem_nil]
      rfl
  | succ i ih =>
      have found : (doubled levels).nodes[i + 1]? = some (.nary .add [i, i]) := by
        simp [doubled, i_le]
      have below := ih (Nat.le_of_succ_le i_le)
      have total : ((doubled levels).treeAt (i + 1)).size =
          1 + (((doubled levels).treeAt i).size + (((doubled levels).treeAt i).size + 0)) := by
        rw [treeAt_eq found (by simp [Node.children]), Tree.size_mk]
        rfl
      rw [total, Nat.pow_succ, ← below]
      omega

theorem size_unfold_doubled (levels : Nat) :
    (doubled levels).unfold.size + 1 = 2 ^ (levels + 1) := size_treeAt_doubled (Nat.le_refl levels)

/-- With 65 levels an accepted formula stands for a tree of more nodes than there are words. -/
theorem doubled_not_exact :
    (doubled 64).validate = .ok () ∧ (doubled 64).nodeCount.toNat = 2 ^ 64 - 1 ∧
      (doubled 64).unfold.size = 2 ^ 65 - 1 ∧ (doubled 64).checkedSizes? = none :=
  ⟨by decide +kernel, by decide +kernel, Nat.eq_sub_of_add_eq (size_unfold_doubled 64),
    by decide +kernel⟩

end Expr

end FormulaFit
