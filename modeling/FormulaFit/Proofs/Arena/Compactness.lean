import FormulaFit.Proofs.Arena.Storage

/-!
# Walks leave compact formulas

A walk that appends a node behind its children makes every node that it appends a child once, except
for the last one, and gives no other node a parent.  So what it leaves has neither shared nodes nor
nodes out of reach, and its root is last.
-/

namespace FormulaFit

variable {α γ : Type}

namespace Arena

/-- How often an index is a child. -/
def uses (arena : Arena α) (i : NodeId) : Nat := (arena.toList.flatMap Node.children).count i

/-- One for the index of a node and zero for any other. -/
def holds (arena : Arena α) (i : NodeId) : Nat := if i < arena.size then 1 else 0

theorem uses_push (arena : Arena α) (n : Node α NodeId) (i : NodeId) :
    uses (Array.push arena n) i = arena.uses i + n.children.count i := by
  simp [uses]

theorem holds_push (arena : Arena α) (n : Node α NodeId) (i : NodeId) :
    holds (Array.push arena n) i = arena.holds i + [arena.size].count i := by
  by_cases last : arena.size = i
  · subst last
    simp [holds]
  · have below : i < arena.size + 1 ↔ i < arena.size :=
      ⟨fun le => Nat.lt_of_le_of_ne (Nat.le_of_lt_succ le) (Ne.symm last), Nat.lt_succ_of_lt⟩
    simp [holds, last, below]

end Arena

/-- A computation appends nodes and makes each of them a child once, except for those whose indices
it gives. -/
def Adopts (given : γ → List NodeId) (write : StateM (Arena α) γ) : Prop :=
  ∀ arena i, (given (write arena).1).count i + (write arena).2.uses i + arena.holds i =
    arena.uses i + (write arena).2.holds i

theorem adopts_mapM {writes : List (StateM (Arena α) NodeId)}
    (each : ∀ w ∈ writes, Adopts (fun i => [i]) w) : Adopts id (writes.mapM id) := by
  induction writes with
  | nil => exact fun arena i => congrArg (· + arena.holds i) (Nat.zero_add (arena.uses i))
  | cons write writes ih =>
      obtain ⟨first, later⟩ := List.forall_mem_cons.mp each
      intro arena i
      have first := first arena i
      have later := ih later (write arena).2 i
      rw [List.mapM_cons]
      change ([(write arena).1] ++ (writes.mapM id (write arena).2).1).count i +
        Arena.uses (writes.mapM id (write arena).2).2 i + arena.holds i =
          arena.uses i + Arena.holds (writes.mapM id (write arena).2).2 i
      dsimp only [id] at first later
      rw [List.count_append]
      omega

theorem Node.mapM_children {σ : Type} (n : Node α (StateM σ γ)) (s : σ) :
    ((n.mapM id s).1.children, (n.mapM id s).2) = n.children.mapM id s := by
  cases n <;> rfl

/-- A node adopts the children that are written for it. -/
theorem adopts_node {n : Node α (StateM (Arena α) NodeId)}
    (each : ∀ w ∈ n.children, Adopts (fun i => [i]) w) :
    Adopts (fun i => [i]) (do Arena.push (← n.mapM id)) := by
  intro arena i
  have adopts := adopts_mapM each arena i
  rw [← Node.mapM_children] at adopts
  change [(n.mapM id arena).2.size].count i +
      Arena.uses (Array.push (n.mapM id arena).2 (n.mapM id arena).1) i + arena.holds i =
    arena.uses i + Arena.holds (Array.push (n.mapM id arena).2 (n.mapM id arena).1) i
  dsimp only [id] at adopts ⊢
  rw [Arena.uses_push, Arena.holds_push]
  omega

/-- A computation appends nodes, makes each of them but the last a child once, and gives the index
of the last one. -/
structure Plants (write : StateM (Arena α) NodeId) : Prop where
  adopts : Adopts (fun i => [i]) write
  root_last : ∀ arena, (write arena).1 + 1 = (write arena).2.size

theorem plants_push {n : Node α NodeId} (leaf : n.children = []) : Plants (Arena.push n) where
  adopts arena i := by
    change [arena.size].count i + Arena.uses (Array.push arena n) i + arena.holds i =
      arena.uses i + Arena.holds (Array.push arena n) i
    rw [Arena.uses_push, Arena.holds_push, leaf, List.count_nil]
    omega
  root_last _ := (Array.size_push _).symm

theorem plants_node {n : Node α (StateM (Arena α) NodeId)} (each : ∀ w ∈ n.children, Plants w) :
    Plants (do Arena.push (← n.mapM id)) where
  adopts := adopts_node fun w is_child => (each w is_child).adopts
  root_last _ := (Array.size_push _).symm

namespace Expr

/-- Every node but the root is a child once, and the root is last. -/
structure IsCompact (e : Expr α) : Prop where
  root_last : e.root + 1 = e.nodes.size
  uses_eq_one : ∀ i < e.root, e.nodes.uses i = 1

end Expr

/-- What is planted in an empty arena is compact. -/
theorem Plants.isCompact {write : StateM (Arena α) NodeId} (plants : Plants write) :
    (⟨(write #[]).2, (write #[]).1⟩ : Expr α).IsCompact := by
  have root_last := plants.root_last #[]
  refine ⟨root_last, fun i i_lt => ?_⟩
  have adopts : [(write #[]).1].count i + (write #[]).2.uses i + Arena.holds (#[] : Arena α) i =
      Arena.uses (#[] : Arena α) i + (write #[]).2.holds i := plants.adopts #[] i
  have other : [(write #[]).1].count i = 0 :=
    List.count_eq_zero.mpr (mt List.mem_singleton.mp (Nat.ne_of_lt i_lt))
  have held : (write #[]).2.holds i = 1 := if_pos (root_last ▸ Nat.lt_succ_of_lt i_lt)
  rw [other, held, Nat.zero_add] at adopts
  exact adopts

namespace Expr

theorem plants_foldAt {missing : StateM (Arena α) NodeId}
    {f : NodeId → Node α (StateM (Arena α) NodeId) → StateM (Arena α) NodeId}
    (absent : Plants missing) (step : ∀ i n, (∀ w ∈ n.children, Plants w) → Plants (f i n))
    (e : Expr α) (i : NodeId) : Plants (e.foldAt missing f i) := by
  induction i using Nat.strongRecOn with
  | ind i ih =>
      rw [foldAt]
      split
      · rename_i n _
        refine step i _ (Node.forall_children_map.mpr fun c _ => ?_)
        split
        · rename_i earlier
          exact ih c earlier
        · exact absent
      · exact absent

/-- A walk that ends with a node over the planted children leaves a compact formula. -/
theorem isCompact_rebuild {replace : Node α NodeId → StateM (Arena α) NodeId}
    (plants : ∀ n : Node α (StateM (Arena α) NodeId), (∀ w ∈ n.children, Plants w) →
      Plants (do replace (← n.mapM id))) (e : Expr α) : (e.rebuild replace).IsCompact :=
  (plants_foldAt (plants (.symbol .nan) (fun _ none => nomatch none)) (fun _ n => plants n) e
    e.root).isCompact

theorem isCompact_compact (e : Expr α) : e.compact.IsCompact :=
  isCompact_rebuild (fun _ => plants_node) e

end Expr

end FormulaFit
