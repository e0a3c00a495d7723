import FormulaFit.Tree
import Mathlib.Data.List.Forall2

/-!
# Trees node by node

What holds of every node of a tree, when two nodes over trees are the same, and how deep a tree is.
-/

namespace FormulaFit

variable {α : Type}

/-- Every node of the tree, over the trees below it, has the property. -/
inductive Tree.All (P : Node α (Tree α) → Prop) : Tree α → Prop where
  | mk {n : Node α (Tree α)} (here : P n) (below : ∀ t ∈ n.children, All P t) : All P (mk n)

namespace Tree.All

variable {P : Node α (Tree α) → Prop} {n : Node α (Tree α)}

theorem here (all : (Tree.mk n).All P) : P n := by
  cases all with
  | mk here _ => exact here

theorem of_child (all : (Tree.mk n).All P) {t : Tree α} (is_child : t ∈ n.children) : t.All P := by
  cases all with
  | mk _ below => exact below t is_child

/-- The tree, and whether the property holds of every node of it. -/
def check (P : Node α (Tree α) → Prop) [DecidablePred P] : Tree α → Tree α × Bool :=
  fold fun n => (.mk (n.map Prod.fst), decide (P (n.map Prod.fst)) && n.children.all Prod.snd)

theorem check_eq [DecidablePred P] (t : Tree α) :
    (check P t).1 = t ∧ ((check P t).2 = true ↔ t.All P) := by
  induction t using Tree.induction with
  | step n each =>
      have same : (n.map (check P)).map Prod.fst = n := by
        rw [Node.map_map]
        exact (Node.map_congr fun t member => (each t member).1).trans n.map_id'
      rw [check, fold_mk]
      dsimp only
      rw [← check, same, Node.children_map]
      refine ⟨rfl, ?_⟩
      simp only [Bool.and_eq_true, decide_eq_true_eq, List.all_map, List.all_eq_true]
      exact ⟨fun ⟨here, below⟩ => .mk here fun t member => (each t member).2.mp (below t member),
        fun all => ⟨all.here, fun t member => (each t member).2.mpr (all.of_child member)⟩⟩

instance [DecidablePred P] (t : Tree α) : Decidable (t.All P) := decidable_of_iff _ (check_eq t).2

end Tree.All

namespace Node

variable {β γ δ : Type}

@[simp]
theorem head_map (f : β → γ) (n : Node α β) : (n.map f).head = n.head := by
  cases n <;> rfl

theorem forall_children_map {f : β → γ} {n : Node α β} {P : γ → Prop} :
    (∀ c ∈ (n.map f).children, P c) ↔ ∀ c ∈ n.children, P (f c) := by
  rw [children_map, List.forall_mem_map]

/-- Nodes are the same over images of their children if they agree without their children, and
children in the same places have the same image. -/
theorem map_eq_map_iff {f : β → δ} {g : γ → δ} {m : Node α β} {n : Node α γ} :
    m.map f = n.map g ↔ m.head = n.head ∧
      List.Forall₂ (fun c d => f c = g d) m.children n.children := by
  have lists_iff {cs : List β} {ds : List γ} :
      cs.map f = ds.map g ↔ List.Forall₂ (fun c d => f c = g d) cs ds := by
    rw [← List.forall₂_eq_eq_eq, List.forall₂_map_left_iff, List.forall₂_map_right_iff]
  cases m <;> cases n <;> simp [map, head, children, lists_iff]

end Node

theorem foldl_max_le_iff {levels : List Nat} {floor bound : Nat} :
    levels.foldl max floor ≤ bound ↔ floor ≤ bound ∧ ∀ d ∈ levels, d ≤ bound := by
  induction levels generalizing floor with
  | nil => simp
  | cons d levels ih =>
      rw [List.foldl_cons, ih, Nat.max_le, List.forall_mem_cons, and_assoc]

theorem Tree.depth_mk (n : Node α (Tree α)) :
    (mk n).depth = 1 + (n.children.map depth).foldl max 0 := by
  rw [depth, fold_mk, Node.children_map]

theorem Tree.depth_lt_of_child {n : Node α (Tree α)} {t : Tree α} (is_child : t ∈ n.children) :
    t.depth < (mk n).depth := by
  have le := (foldl_max_le_iff.mp (Nat.le_refl ((n.children.map depth).foldl max 0))).2
  rw [depth_mk, Nat.lt_one_add_iff]
  exact le _ (List.mem_map_of_mem is_child)

end FormulaFit
