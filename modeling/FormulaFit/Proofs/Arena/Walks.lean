import FormulaFit.Formula.Printer
import FormulaFit.Proofs.Arena.Storage

/-!
# Walks from the root

A walk by index visits a stored node once for every use, so it meets exactly the tree that the root
stands for: combining a formula from the root down is combining its tree, whether what is combined
are texts, truths or appended nodes.  A walk that has an effect at every node has the effects of the
nodes of the tree, and otherwise does what the walk without them does.
-/

namespace FormulaFit

variable {α γ : Type}

namespace Expr

theorem treeAt_eq_match (e : Expr α) (i : NodeId) :
    e.treeAt i =
      match e.nodes[i]? with
      | some n => .mk (n.map fun c => if c < i then e.treeAt c else default)
      | none => default :=
  scan_getD_eq (fun _ n => Tree.mk n) e i

theorem foldAt_eq (f : Node α γ → γ) (e : Expr α) (i : NodeId) :
    e.foldAt (f (.symbol .nan)) (fun _ => f) i = (e.treeAt i).fold f := by
  have missing_eq : f (.symbol .nan) = (default : Tree α).fold f :=
    (Tree.fold_mk f (.symbol .nan)).symm
  induction i using Nat.strongRecOn with
  | ind i ih =>
      rw [foldAt, treeAt_eq_match]
      cases e.nodes[i]? with
      | none => exact missing_eq
      | some n =>
          dsimp only
          rw [Tree.fold_mk, Node.map_map]
          refine congrArg f (Node.map_congr fun c _ => ?_)
          by_cases earlier : c < i
          · rw [if_pos earlier, Function.comp_apply, if_pos earlier]
            exact ih c earlier
          · rw [if_neg earlier, Function.comp_apply, if_neg earlier]
            exact missing_eq

/-- Combining a formula from the root down combines its tree. -/
theorem fold_eq (f : Node α γ → γ) (e : Expr α) : e.fold f = e.unfold.fold f := foldAt_eq f e e.root

/-- Where children come before their parents, a scan that ignores indices folds the trees. -/
theorem scan_eq_fold [Inhabited γ] (f : Node α γ → γ) {e : Expr α}
    (ordered : e.nodes.Ordered) {i : NodeId} (i_lt : i < e.nodes.size) :
    (e.scan fun _ n => f n).getD i default = (e.treeAt i).fold f := by
  induction i using Nat.strongRecOn with
  | ind i ih =>
      have found : e.nodes[i]? = some e.nodes[i] := Array.getElem?_eq_getElem i_lt
      have child_lt := ordered i _ found
      rw [scan_getD _ found child_lt, treeAt_eq found child_lt, Tree.fold_mk, Node.map_map]
      refine congrArg f (Node.map_congr fun c member => ?_)
      exact ih c (child_lt c member) (Nat.lt_trans (child_lt c member) i_lt)

theorem depth_eq {e : Expr α} (ordered : e.nodes.Ordered) (root_lt : e.root < e.nodes.size) :
    e.depth = e.unfold.depth :=
  scan_eq_fold (fun n => 1 + n.children.foldl max 0) ordered root_lt

/-- Appending what replaces every node of a formula goes along its tree. -/
theorem rebuild_eq (replace : Node α NodeId → StateM (Arena α) NodeId) (e : Expr α) :
    e.rebuild replace =
      let write : StateM (Arena α) NodeId := e.unfold.fold fun n => do replace (← n.mapM id)
      ⟨(write #[]).2, (write #[]).1⟩ := by
  rw [rebuild, rebuildM, fold_eq]
  rfl

theorem unfold_rebuild {replace : Node α NodeId → StateM (Arena α) NodeId}
    {rule : Node α (Tree α) → Tree α} (replaces : Replaces replace rule) (e : Expr α) :
    (e.rebuild replace).unfold = e.unfold.fold rule := by
  rw [rebuild_eq]
  exact (Tree.stores_fold replaces e.unfold #[] fun i n found => by simp at found).tree_eq

theorem compact_eq (e : Expr α) : e.compact = e.unfold.store := rebuild_eq Arena.push e

end Expr

/-- The text of a tree. -/
def Tree.display (t : Tree Float) : String := (t.fold Formula.printNode).text

theorem Expr.display_eq (e : Expr Float) : e.display = e.unfold.display := by
  rw [display, fold_eq, Tree.display]

theorem Node.head_mapM {σ : Type} (n : Node α (StateM σ γ)) (s : σ) :
    (n.mapM id s).1.head = n.head := by
  cases n <;> rfl

section Effects

variable {σ β δ : Type} {m : Type → Type} [Monad m]

/-- A computation on a state has an effect that does not depend on the state, and otherwise does
what a plain computation does. -/
def Splits (x : StateT σ m γ) (effect : m Unit) (write : StateM σ γ) : Prop :=
  ∀ s, x s = (fun _ => write s) <$> effect

/-- The effects of all nodes of a tree, from the leaves up. -/
def Tree.visit (effect : Node α Unit → m Unit) : Tree α → m Unit := fold fun n => do
  forM n.children id
  effect n.head

variable [LawfulMonad m]

theorem Tree.visit_mk (effect : Node α Unit → m Unit) (n : Node α (Tree α)) :
    (mk n).visit effect = (do forM n.children (visit effect); effect n.head) := by
  rw [visit, fold_mk, Node.children_map, Node.head_map, List.forM_map]
  rfl

theorem splits_pure (c : γ) : Splits (pure c : StateT σ m γ) (pure ()) (pure c) := fun s =>
  (map_pure (fun _ => (c, s)) ()).symm

theorem Splits.bind {x : StateT σ m γ} {effect effect' : m Unit} {write : StateM σ γ}
    {next : γ → StateT σ m δ} {next' : γ → StateM σ δ} (splits : Splits x effect write)
    (splits' : ∀ s, Splits (next (write s).1) effect' (next' (write s).1)) :
    Splits (x >>= next) (do effect; effect') (write >>= next') := by
  intro s
  change (x s >>= fun p => next p.1 p.2) = _
  rw [splits s, map_eq_pure_bind, bind_assoc, map_bind]
  simp only [pure_bind]
  exact bind_congr fun _ => splits' s (write s).2

theorem Splits.map {x : StateT σ m γ} {effect : m Unit} {write : StateM σ γ}
    (splits : Splits x effect write) (f : γ → δ) :
    Splits (do return f (← x)) effect (do return f (← write)) := by
  have mapped : Splits (do return f (← x)) (do effect; pure ()) (do return f (← write)) :=
    splits.bind fun _ => splits_pure _
  rwa [bind_pure_unit] at mapped

theorem splits_lift_modifyGet (effect : m Unit) (write : StateM σ γ) :
    Splits (do StateT.lift effect; modifyGet write) effect write := by
  intro s
  change (effect >>= fun _ => pure ((), s)) >>= (fun p => pure (write p.2)) = _
  simp

theorem splits_mapM_list {walk : β → StateT σ m γ} {effect : β → m Unit} {write : β → StateM σ γ}
    {items : List β} (each : ∀ b ∈ items, Splits (walk b) (effect b) (write b)) :
    Splits ((items.map walk).mapM id) (forM items effect) ((items.map write).mapM id) := by
  induction items with
  | nil => exact splits_pure []
  | cons b items ih =>
      obtain ⟨first, later⟩ := List.forall_mem_cons.mp each
      rw [List.map_cons, List.mapM_cons, List.map_cons, List.mapM_cons, List.forM_cons]
      exact first.bind fun s => (ih later).map ((write b s).1 :: ·)

theorem splits_mapM {walk : β → StateT σ m γ} {effect : β → m Unit} {write : β → StateM σ γ}
    {n : Node α β} (each : ∀ b ∈ n.children, Splits (walk b) (effect b) (write b)) :
    Splits ((n.map walk).mapM id) (forM n.children effect) ((n.map write).mapM id) := by
  have pair {a b : β} (join : γ → γ → Node α γ)
      (each : ∀ c ∈ [a, b], Splits (walk c) (effect c) (write c)) :
      Splits (do let i ← walk a; let j ← walk b; return join i j) (forM [a, b] effect)
        (do let i ← write a; let j ← write b; return join i j) := by
    simp only [List.forM_cons, List.forM_nil, bind_pure_unit]
    exact (each a (by simp)).bind fun s => (each b (by simp)).map (join (write a s).1)
  cases n with
  | unary op a =>
      simp only [Node.children, List.forM_cons, List.forM_nil, bind_pure_unit]
      exact (each a (by simp [Node.children])).map (Node.unary op)
  | binary op a b => exact pair (.binary op) each
  | relation op a b => exact pair (.relation op) each
  | bounds a b => exact pair .bounds each
  | nary op args => exact (splits_mapM_list each).map (Node.nary op)
  | call name args => exact (splits_mapM_list each).map (Node.call name)
  | _ => exact splits_pure _

/-- A walk with an effect at every node has the effects of the nodes of the tree. -/
theorem Tree.splits_fold (effect : Node α Unit → m Unit)
    (replace : Node α γ → StateM σ γ) (t : Tree α) :
    Splits (t.fold fun n => do
        let n ← n.mapM id
        StateT.lift (effect n.head)
        modifyGet (replace n))
      (t.visit effect) (t.fold fun n => do replace (← n.mapM id)) := by
  induction t using Tree.induction with
  | step n each =>
      rw [fold_mk, visit_mk, fold_mk]
      refine (splits_mapM each).bind fun s => ?_
      rw [Node.head_mapM, Node.head_map]
      exact splits_lift_modifyGet (effect n.head) (replace _)

/-- Rebuilding with an effect at every node has the effects of the nodes of the tree, and rebuilds
as without them. -/
theorem Expr.rebuildM_eq (effect : Node α Unit → m Unit)
    (replace : Node α NodeId → StateM (Arena α) NodeId) (e : Expr α) :
    (e.rebuildM fun n => do
        StateT.lift (effect n.head)
        modifyGet (replace n)) = (fun _ => e.rebuild replace) <$> e.unfold.visit effect := by
  rw [rebuildM, fold_eq, StateT.run, Tree.splits_fold effect replace e.unfold #[], rebuild_eq]
  simp

end Effects

end FormulaFit
