import FormulaFit.Proofs.Arena.Compactness
import FormulaFit.Proofs.Arena.Occurrence
import Mathlib.Data.List.Flatten
import Mathlib.Data.List.Nodup
import Mathlib.Data.List.Perm.Subperm

/-!
# A compact formula shares nothing

Apart from the root, what the preorder lists are the children of what it lists.  In a compact
formula every other node is a child once, so from the root down nothing is listed twice.
-/

namespace FormulaFit

variable {α : Type}

namespace Expr

variable {e : Expr α}

/-- The children of the node at an index. -/
def childrenAt (e : Expr α) (i : NodeId) : List NodeId := (e.nodes[i]?.map Node.children).getD []

/-- Apart from the first, the preorder lists the children of what it lists. -/
theorem Valid.preorderAt_perm (valid : e.Valid) {i : NodeId} (reachable : e.Reachable i) :
    (e.preorderAt i).Perm (i :: (e.preorderAt i).flatMap e.childrenAt) := by
  refine valid.reachable_induction
    (P := fun i => (e.preorderAt i).Perm (i :: (e.preorderAt i).flatMap e.childrenAt))
    (fun i n _ found each => ?_) reachable
  have children_eq : e.childrenAt i = n.children := by simp [childrenAt, found]
  have below : ∀ cs ⊆ n.children, (cs.flatMap e.preorderAt).Perm
      (cs ++ (cs.flatMap e.preorderAt).flatMap e.childrenAt) := by
    intro cs within
    induction cs with
    | nil => exact .refl _
    | cons c cs ih =>
        have first := each c (within List.mem_cons_self)
        have rest := ih (List.subset_of_cons_subset within)
        rw [List.flatMap_cons, List.flatMap_append]
        refine (first.append rest).trans ?_
        rw [List.cons_append, List.cons_append]
        refine .cons c ?_
        rw [← List.append_assoc, ← List.append_assoc]
        exact List.perm_append_comm.append_right _
  rw [valid.preorderAt_eq found, List.flatMap_cons, children_eq]
  exact (below n.children (List.Subset.refl _)).cons i

theorem uses_eq_count (e : Expr α) (i : NodeId) :
    e.nodes.uses i = ((List.range e.nodes.size).flatMap e.childrenAt).count i := by
  have listed : e.nodes.toList.map Node.children =
      (List.range e.nodes.size).map e.childrenAt :=
    List.ext_getElem (by simp) fun i i_lt _ => by
      have stored : i < e.nodes.size := by simpa using i_lt
      simp [childrenAt, stored]
  rw [Arena.uses, List.flatMap_def, List.flatMap_def, listed]

theorem Valid.lt_of_mem_childrenAt (valid : e.Valid) {i j : NodeId}
    (is_child : i ∈ e.childrenAt j) : i < j := by
  cases found : e.nodes[j]? with
  | none => simp [childrenAt, found] at is_child
  | some n => exact valid.child_lt found i (by simpa [childrenAt, found] using is_child)

theorem Valid.le_root_of_mem_preorder (valid : e.Valid) {i : NodeId} (member : i ∈ e.preorder) :
    i ≤ e.root := valid.le_root (Reachable.root.of_mem_preorderAt member)

theorem Valid.count_children (valid : e.Valid) (i : NodeId) (js : List NodeId) :
    (js.flatMap e.childrenAt).count i =
      ((js.filter fun j => decide (i < j)).flatMap e.childrenAt).count i := by
  induction js with
  | nil => rfl
  | cons j js ih =>
      rw [List.flatMap_cons, List.count_append, ih, List.filter_cons]
      split
      · rw [List.flatMap_cons, List.count_append]
      · rename_i early
        rw [List.count_eq_zero.mpr fun is_child => early
          (decide_eq_true (valid.lt_of_mem_childrenAt is_child)), Nat.zero_add]

/-- In a compact formula an index occurs at most once if no later one occurs twice: it is the root,
or it is a child once. -/
theorem IsCompact.count_preorder_le_one (compact : e.IsCompact) (valid : e.Valid) {i : NodeId}
    (i_le : i ≤ e.root) (later : ∀ j, i < j → e.preorder.count j ≤ 1) :
    e.preorder.count i ≤ 1 := by
  let parents := e.preorder.filter fun j => decide (i < j)
  have parent_bounds {j : NodeId} (member : j ∈ parents) : i < j ∧ j ≤ e.root := by
    obtain ⟨occurs, later⟩ := List.mem_filter.mp member
    exact ⟨of_decide_eq_true later, valid.le_root_of_mem_preorder occurs⟩
  have as_child : e.preorder.count i =
      [e.root].count i + (parents.flatMap e.childrenAt).count i := by
    rw [← valid.count_children, ← List.count_append]
    exact (valid.preorderAt_perm .root).count_eq i
  rw [as_child]
  rcases Nat.lt_or_eq_of_le i_le with before | rfl
  · have distinct : parents.Nodup := List.nodup_iff_count_le_one.mpr fun j => by
      by_cases member : j ∈ parents
      · exact Nat.le_trans (List.filter_sublist.count_le j) (later j (parent_bounds member).1)
      · exact List.count_eq_zero.mpr member ▸ Nat.zero_le 1
    have stored : parents ⊆ List.range e.nodes.size := fun j member =>
      List.mem_range.mpr (Nat.lt_of_le_of_lt (parent_bounds member).2 valid.root_lt)
    obtain ⟨js, perm, sublist⟩ := List.subperm_of_subset distinct stored
    have le := (sublist.flatMap e.childrenAt).count_le i
    rw [← uses_eq_count, compact.uses_eq_one i before] at le
    have other : [e.root].count i = 0 :=
      List.count_eq_zero.mpr (mt List.mem_singleton.mp (Nat.ne_of_lt before))
    rw [other, Nat.zero_add, ← (perm.flatMap_right e.childrenAt).count_eq i]
    exact le
  · have none_later : parents = [] := List.eq_nil_iff_forall_not_mem.mpr fun j member =>
      absurd (parent_bounds member).1 (Nat.not_lt.mpr (parent_bounds member).2)
    simp [none_later]

theorem IsCompact.nodup_preorder (compact : e.IsCompact) (valid : e.Valid) : e.preorder.Nodup := by
  have once (gap : Nat) : ∀ i : NodeId, e.root < i + gap → e.preorder.count i ≤ 1 := by
    induction gap with
    | zero =>
        intro i after
        have absent : i ∉ e.preorder := fun member =>
          Nat.not_lt.mpr (valid.le_root_of_mem_preorder member) after
        exact List.count_eq_zero.mpr absent ▸ Nat.zero_le 1
    | succ gap ih =>
        intro i within
        by_cases member : i ∈ e.preorder
        · refine compact.count_preorder_le_one valid (valid.le_root_of_mem_preorder member)
            fun j i_lt => ih j ?_
          have succ_le : i + (gap + 1) ≤ j + gap := by
            rw [Nat.add_comm gap 1, ← Nat.add_assoc]
            exact Nat.add_le_add_right i_lt gap
          exact Nat.lt_of_lt_of_le within succ_le
        · exact List.count_eq_zero.mpr member ▸ Nat.zero_le 1
  exact List.nodup_iff_count_le_one.mpr fun i =>
    once (e.root + 1) i (Nat.lt_of_lt_of_le (Nat.lt_succ_self _) (Nat.le_add_left _ _))

end Expr

end FormulaFit
