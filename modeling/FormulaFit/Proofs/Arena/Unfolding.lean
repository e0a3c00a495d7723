import FormulaFit.Expr.Validity
import Mathlib.Tactic.Common

/-!
# Unfolding of valid formulas

In a valid arena every child comes before its parent, so a scan in index order gives each node its
value from the finished values of its children, and every stored node stands for a tree.  The nodes
that matter are those reachable from the root.
-/

namespace FormulaFit

/-- Appending one computed entry after the other leaves, at each place, the entry computed from
those before it. -/
theorem getElem?_foldl_push {β γ : Type} (entry : Array γ → β → γ) (items : List β)
    (start : Array γ) :
    let result := items.foldl (fun entries item => entries.push (entry entries item)) start
    result.size = start.size + items.length ∧ result.extract 0 start.size = start ∧
      ∀ i item, items[i]? = some item →
        result[start.size + i]? = some (entry (result.extract 0 (start.size + i)) item) := by
  induction items generalizing start with
  | nil => simp
  | cons head items ih =>
      obtain ⟨size_eq, extract_eq, entry_eq⟩ := ih (start.push (entry start head))
      simp only [Array.size_push] at size_eq extract_eq entry_eq
      simp only [List.foldl_cons, List.length_cons]
      have start_eq :
          (List.foldl (fun entries item => entries.push (entry entries item))
            (start.push (entry start head)) items).extract 0 start.size = start := by
        have extracted := congrArg (fun entries => entries.extract 0 start.size) extract_eq
        simpa [Array.extract_extract] using extracted
      refine ⟨by omega, start_eq, ?_⟩
      intro i item found
      cases i with
      | zero =>
          obtain rfl : head = item := by simpa using found
          rw [Nat.add_zero, start_eq]
          have last := congrArg (fun entries => entries[start.size]?) extract_eq
          have found_last := by simpa [Array.getElem?_extract] using last
          simpa using found_last.2
      | succ i =>
          have later := entry_eq i item (by simpa using found)
          rwa [show start.size + 1 + i = start.size + (i + 1) by omega] at later

theorem getD_extract {β : Type} (entries : Array β) {i stop : Nat} (i_lt : i < stop) (default : β) :
    (entries.extract 0 stop).getD i default = entries.getD i default := by
  simp only [Array.getD_eq_getD_getElem?, Array.getElem?_extract]
  by_cases stored : i < entries.size
  · have within : i < min stop entries.size := Nat.lt_min.mpr ⟨i_lt, stored⟩
    simp [within]
  · simp [stored]

namespace Expr

variable {α γ : Type}

/-- What a valid formula satisfies. -/
structure Valid (e : Expr α) : Prop where
  root_lt : e.root < e.nodes.size
  child_lt : ∀ {i : NodeId} {n : Node α NodeId}, e.nodes[i]? = some n → ∀ c ∈ n.children, c < i
  /-- No operator of any number of operands is without one. -/
  operands_ne_nil : ∀ {i : NodeId} {op : NaryOp} {args : List NodeId},
    e.nodes[i]? = some (.nary op args) → args ≠ []
  depth_le : e.depth ≤ depthLimit

theorem nodeFault?_eq_none_iff (index : NodeId) (n : Node α NodeId) :
    nodeFault? index n = none ↔ (∀ c ∈ n.children, c < index) ∧ ∀ op, n ≠ .nary op [] := by
  unfold nodeFault?
  cases misplaced : n.children.find? fun c => decide (index ≤ c) with
  | some c =>
      have late := List.find?_some misplaced
      have member := List.mem_of_find?_eq_some misplaced
      simp only [decide_eq_true_eq] at late
      simp only [reduceCtorEq, false_iff, not_and]
      intro early
      exact absurd (early c member) (Nat.not_lt.mpr late)
  | none =>
      simp only [List.find?_eq_none, decide_eq_true_eq, Nat.not_le] at misplaced
      cases n with
      | nary op args => cases args <;> simp_all
      | _ => simp_all

theorem validate_eq_ok_iff (e : Expr α) : e.validate = .ok () ↔ e.Valid := by
  have faultless :
      (e.nodes.toList.zipIdx.findSome? fun entry => nodeFault? entry.2 entry.1) = none ↔
        ∀ i n, e.nodes[i]? = some n → nodeFault? i n = none := by
    simp only [List.findSome?_eq_none_iff, Prod.forall, List.mem_zipIdx_iff_getElem?,
      Array.getElem?_toList]
    exact ⟨fun all i n found => all n i found, fun all n i found => all i n found⟩
  unfold validate
  split
  · rename_i outside
    simp only [reduceCtorEq, false_iff]
    exact fun valid => absurd valid.root_lt (Nat.not_lt.mpr outside)
  · rename_i stored
    split
    · rename_i fault found
      simp only [reduceCtorEq, false_iff]
      intro valid
      have none_found := faultless.mpr fun i n found => (nodeFault?_eq_none_iff i n).mpr
        ⟨valid.child_lt found, fun op empty => valid.operands_ne_nil (empty ▸ found) rfl⟩
      cases none_found.symm.trans found
    · rename_i none_found
      have sound := faultless.mp none_found
      split
      · rename_i deep
        simp only [reduceCtorEq, false_iff]
        exact fun valid => absurd valid.depth_le (Nat.not_le.mpr deep)
      · rename_i shallow
        simp only [true_iff]
        exact {
          root_lt := Nat.not_le.mp stored
          child_lt := fun found => ((nodeFault?_eq_none_iff _ _).mp (sound _ _ found)).1
          operands_ne_nil := fun {i op args} found empty =>
            ((nodeFault?_eq_none_iff _ _).mp (sound _ _ found)).2 op (by rw [empty])
          depth_le := Nat.not_lt.mp shallow }

theorem size_scan [Inhabited γ] (f : NodeId → Node α γ → γ) (e : Expr α) :
    (e.scan f).size = e.nodes.size := by
  have sizes := (getElem?_foldl_push
    (fun values n => f values.size (n.map fun c => values.getD c default)) e.nodes.toList #[]).1
  simpa [scan] using sizes

theorem scan_getD_eq [Inhabited γ] (f : NodeId → Node α γ → γ) (e : Expr α) (i : NodeId) :
    (e.scan f).getD i default =
      match e.nodes[i]? with
      | some n => f i (n.map fun c => if c < i then (e.scan f).getD c default else default)
      | none => default := by
  cases found : e.nodes[i]? with
  | none =>
      have outside := Array.getElem?_eq_none_iff.mp found
      simp [Array.getD_eq_getD_getElem?, size_scan, outside]
  | some n =>
      have entry_eq := (getElem?_foldl_push
        (fun values n => f values.size (n.map fun c => values.getD c default))
        e.nodes.toList #[]).2.2
      simp only [Array.foldl_toList, List.size_toArray, List.length_nil, Nat.zero_add] at entry_eq
      have entry := entry_eq i n (by simpa using found)
      change (e.scan f)[i]? = some (f ((e.scan f).extract 0 i).size
        (n.map fun c => ((e.scan f).extract 0 i).getD c default)) at entry
      have i_lt : i < e.nodes.size := (Array.getElem?_eq_some_iff.mp found).1
      have size_extract : ((e.scan f).extract 0 i).size = i := by
        rw [Array.size_extract, size_scan]
        exact Nat.min_eq_left (Nat.le_of_lt i_lt)
      have values_eq : ∀ c ∈ n.children, ((e.scan f).extract 0 i).getD c default =
          if c < i then (e.scan f).getD c default else default := by
        intro c _
        split
        · rename_i earlier
          exact getD_extract _ earlier _
        · rename_i late
          have outside := Nat.le_trans (Nat.le_of_eq size_extract) (Nat.not_lt.mp late)
          rw [Array.getD_eq_getD_getElem?, Array.getElem?_eq_none outside]
          rfl
      rw [Node.map_congr values_eq, size_extract] at entry
      simp [Array.getD_eq_getD_getElem?, entry]

/-- A scan gives every node its value over the values it gives to the children. -/
theorem scan_getD [Inhabited γ] (f : NodeId → Node α γ → γ) {e : Expr α} {i : NodeId}
    {n : Node α NodeId} (found : e.nodes[i]? = some n) (child_lt : ∀ c ∈ n.children, c < i) :
    (e.scan f).getD i default = f i (n.map fun c => (e.scan f).getD c default) := by
  rw [scan_getD_eq, found]
  exact congrArg (f i) (Node.map_congr fun c is_child => if_pos (child_lt c is_child))

/-- The tree that a stored node stands for. -/
def treeAt (e : Expr α) (i : NodeId) : Tree α := (e.scan fun _ n => .mk n).getD i default

theorem unfold_eq_treeAt (e : Expr α) : e.unfold = e.treeAt e.root := rfl

theorem treeAt_eq {e : Expr α} {i : NodeId} {n : Node α NodeId} (found : e.nodes[i]? = some n)
    (child_lt : ∀ c ∈ n.children, c < i) : e.treeAt i = .mk (n.map e.treeAt) :=
  scan_getD (fun _ n => Tree.mk n) found child_lt

theorem Valid.treeAt_eq {e : Expr α} (valid : e.Valid) {i : NodeId} {n : Node α NodeId}
    (found : e.nodes[i]? = some n) : e.treeAt i = .mk (n.map e.treeAt) :=
  Expr.treeAt_eq found (valid.child_lt found)

/-- The indices of the root and of everything below it. -/
inductive Reachable (e : Expr α) : NodeId → Prop where
  | root : Reachable e e.root
  | child {i c : NodeId} {n : Node α NodeId} (parent : Reachable e i)
      (found : e.nodes[i]? = some n) (member : c ∈ n.children) : Reachable e c

/-- A node of some kind is reachable from the root. -/
def Reaches (e : Expr α) (n : Node α NodeId) : Prop := ∃ i, e.Reachable i ∧ e.nodes[i]? = some n

theorem Reaches.mem {e : Expr α} {n : Node α NodeId} (reaches : e.Reaches n) :
    n ∈ e.nodes.toList := by
  obtain ⟨i, -, found⟩ := reaches
  exact Array.mem_toList_iff.mpr (Array.mem_of_getElem? found)

theorem Valid.le_root {e : Expr α} (valid : e.Valid) {i : NodeId} (reachable : e.Reachable i) :
    i ≤ e.root := by
  induction reachable with
  | root => exact Nat.le_refl _
  | child parent found member ih => exact Nat.le_of_lt (Nat.lt_of_lt_of_le
      (valid.child_lt found _ member) ih)

theorem Valid.exists_node {e : Expr α} (valid : e.Valid) {i : NodeId}
    (reachable : e.Reachable i) : ∃ n, e.nodes[i]? = some n := by
  have i_lt : i < e.nodes.size := Nat.lt_of_le_of_lt (valid.le_root reachable) valid.root_lt
  exact ⟨e.nodes[i], Array.getElem?_eq_getElem i_lt⟩

/-- What passes from the children to every stored node holds of every reachable node. -/
theorem Valid.reachable_induction {e : Expr α} (valid : e.Valid) {P : NodeId → Prop}
    (step : ∀ i n, e.Reachable i → e.nodes[i]? = some n → (∀ c ∈ n.children, P c) → P i)
    {i : NodeId} (reachable : e.Reachable i) : P i := by
  induction i using Nat.strongRecOn with
  | ind i ih =>
      obtain ⟨n, found⟩ := valid.exists_node reachable
      exact step i n reachable found fun c member =>
        ih c (valid.child_lt found c member) (.child reachable found member)

end Expr

end FormulaFit
