import FormulaFit.Proofs.Arena.Layout
import FormulaFit.Proofs.Arena.Sharing
import FormulaFit.Proofs.Optimize.Outcomes
import FormulaFit.Proofs.Rewriting.Closure

/-!
# Lifting, occurrence by occurrence

Whether a literal is lifted depends on where it occurs, but the replacement is made node by node.
On a tree there is no such difference: one pass from left to right numbers the literals that are
lifted.  Lifting a formula gives that tree if and only if each node that is lifted occurs once; a
literal node that is shared becomes one coefficient wherever it occurs, in an integral exponent too.
-/

namespace FormulaFit

variable {α : Type}

namespace Node

variable {β γ : Type}

/-- The node over its children, each with whether it is the exponent of a power. -/
def flagExponent : Node α β → Node α (β × Bool)
  | .binary .pow base exponent => .binary .pow (base, false) (exponent, true)
  | n => n.map fun c => (c, false)

theorem flagExponent_map (f : β → γ) (n : Node α β) :
    (n.map f).flagExponent = n.flagExponent.map fun (c, exponent) => (f c, exponent) := by
  cases n with
  | binary op a b => cases op <;> rfl
  | _ => simp [flagExponent, map]

@[simp]
theorem head_flagExponent (n : Node α β) : n.flagExponent.head = n.head := by
  cases n with
  | binary op a b => cases op <;> rfl
  | _ => rfl

theorem map_fst_flagExponent (n : Node α β) : n.flagExponent.map Prod.fst = n := by
  cases n with
  | binary op a b => cases op <;> rfl
  | _ => simp [flagExponent, map, Function.comp_def]

theorem children_flagExponent (n : Node α β) :
    n.flagExponent.children.map Prod.fst = n.children := by
  rw [← children_map, map_fst_flagExponent]

@[simp]
theorem paramIndex?_head (n : Node α β) : n.head.paramIndex? = n.paramIndex? := by
  cases n <;> rfl

theorem map_ne_const {f : β → γ} {n : Node α β} (other : ∀ v, n ≠ .const v) :
    ∀ v, n.map f ≠ .const v := by
  intro v same
  cases n with
  | const w => exact other w rfl
  | _ => cases same

theorem mapM_head {σ : Type} (n : Node α (StateM σ γ)) (s : σ) :
    (n.mapM id s).1.head = n.head := by
  cases n <;> rfl

theorem eq_of_children_eq {m n : Node α β} (head_eq : m.head = n.head)
    (children_eq : m.children = n.children) : m = n := by
  have same : m.map (fun c => c) = n.map fun c => c :=
    map_eq_map_iff.mpr ⟨head_eq, List.forall₂_eq_eq_eq ▸ children_eq⟩
  rwa [map_id', map_id'] at same

end Node

namespace Tree

/-- The coefficients of a tree, from left to right. -/
def paramIndices (t : Tree α) : List UInt64 := t.heads.filterMap Node.paramIndex?

theorem paramIndices_mk (n : Node α (Tree α)) :
    (mk n).paramIndices = n.head.paramIndex?.toList ++ n.children.flatMap paramIndices := by
  rw [paramIndices, heads_mk, List.filterMap_cons, List.filterMap_flatMap]
  cases n.head.paramIndex? <;> rfl

end Tree

section Trees

variable [Scalar α]

/-- A literal can be lifted, unless it is an integral exponent. -/
def Scalar.isLiftable (exponent : Bool) (v : α) : Bool :=
  Scalar.isFinite v && !(exponent && Scalar.isIntegral v)

namespace Tree

/-- The literals of a tree that can be lifted, from left to right; the tree itself may be an
exponent. -/
def liftables : Tree α → (exponent : Bool) → List α :=
  fold fun n exponent =>
    match n with
    | .const v => if Scalar.isLiftable exponent v then [v] else []
    | n => n.flagExponent.children.flatMap fun (below, exponent) => below exponent

/-- The tree with these literals replaced by coefficients, numbered from left to right. -/
def numbered : Tree α → (exponent : Bool) → StateM Nat (Tree α) :=
  fold fun n exponent =>
    match n with
    | .const v => fun k =>
      if Scalar.isLiftable exponent v then (.mk (.param (UInt64.ofNat k)), k + 1)
      else (.mk (.const v), k)
    | n => do return .mk (← (n.flagExponent.map fun (below, exponent) => below exponent).mapM id)

theorem liftables_const (v : α) (exponent : Bool) :
    (mk (.const v)).liftables exponent = if Scalar.isLiftable exponent v then [v] else [] := by
  rw [liftables, fold_mk]
  rfl

theorem liftables_mk {n : Node α (Tree α)} (other : ∀ v, n ≠ .const v) (exponent : Bool) :
    (mk n).liftables exponent = n.flagExponent.children.flatMap fun t => t.1.liftables t.2 := by
  have below : (n.map liftables).flagExponent.children.flatMap (fun (f, exponent) => f exponent) =
      n.flagExponent.children.flatMap fun t => t.1.liftables t.2 := by
    rw [Node.flagExponent_map, Node.children_map, List.flatMap_map]
  rw [← below, liftables, fold_mk]
  cases n with
  | const v => exact absurd rfl (other v)
  | _ => rfl

theorem numbered_const (v : α) (exponent : Bool) (k : Nat) :
    (mk (.const v)).numbered exponent k =
      if Scalar.isLiftable exponent v then (.mk (.param (UInt64.ofNat k)), k + 1)
      else (.mk (.const v), k) := by
  rw [numbered, fold_mk]
  rfl

theorem numbered_mk {n : Node α (Tree α)} (other : ∀ v, n ≠ .const v) (exponent : Bool) (k : Nat) :
    (mk n).numbered exponent k =
      let result := (n.flagExponent.map fun t => t.1.numbered t.2).mapM id k
      (mk result.1, result.2) := by
  have below : (n.map numbered).flagExponent.map (fun (f, exponent) => f exponent) =
      n.flagExponent.map fun t => t.1.numbered t.2 := by
    rw [Node.flagExponent_map, Node.map_map]
    rfl
  rw [← below, numbered, fold_mk]
  cases n with
  | const v => exact absurd rfl (other v)
  | _ => rfl

/-- Numbering trees one after the other uses as many numbers as there are literals, in order. -/
theorem paramIndices_mapM (ts : List (Tree α × Bool))
    (each : ∀ t ∈ ts, ∀ k,
      (t.1.numbered t.2 k).1.paramIndices =
          (List.range' k (t.1.liftables t.2).length).map UInt64.ofNat ∧
        (t.1.numbered t.2 k).2 = k + (t.1.liftables t.2).length) (k : Nat) :
    let result := (ts.map fun t => t.1.numbered t.2).mapM id k
    result.1.flatMap paramIndices =
        (List.range' k (ts.flatMap fun t => t.1.liftables t.2).length).map UInt64.ofNat ∧
      result.2 = k + (ts.flatMap fun t => t.1.liftables t.2).length := by
  induction ts generalizing k with
  | nil => exact ⟨rfl, rfl⟩
  | cons t ts ih =>
      obtain ⟨first, later⟩ := List.forall_mem_cons.mp each
      obtain ⟨here, next⟩ := first k
      obtain ⟨rest, last⟩ := ih later (t.1.numbered t.2 k).2
      rw [next] at rest last
      rw [List.map_cons, List.mapM_cons, List.flatMap_cons, List.length_append,
        ← List.range'_append_1, List.map_append, ← here, ← rest, ← Nat.add_assoc, ← last, ← next]
      exact ⟨rfl, rfl⟩

theorem paramIndices_numbered {t : Tree α} (param_free : t.paramIndices = []) (exponent : Bool)
    (k : Nat) :
    (t.numbered exponent k).1.paramIndices =
        (List.range' k (t.liftables exponent).length).map UInt64.ofNat ∧
      (t.numbered exponent k).2 = k + (t.liftables exponent).length := by
  induction t using Tree.induction generalizing exponent k with
  | step n each =>
      by_cases literal : ∃ v, n = .const v
      · obtain ⟨v, rfl⟩ := literal
        rw [numbered_const, liftables_const]
        split <;> exact ⟨rfl, rfl⟩
      · have other : ∀ v, n ≠ .const v := fun v same => literal ⟨v, same⟩
        rw [paramIndices_mk, List.append_eq_nil_iff, List.flatMap_eq_nil_iff] at param_free
        have flagged : ∀ t ∈ n.flagExponent.children, t.1 ∈ n.children := fun t member =>
          n.children_flagExponent ▸ List.mem_map_of_mem member
        have children := paramIndices_mapM n.flagExponent.children (fun t member k =>
          each t.1 (flagged t member) (param_free.2 t.1 (flagged t member)) t.2 k) k
        rw [← Node.children_map, ← Node.mapM_children] at children
        rw [numbered_mk other, liftables_mk other, paramIndices_mk]
        dsimp only
        rw [Node.mapM_head, Node.head_map, Node.head_flagExponent,
          Option.toList_eq_nil_iff.mp param_free.1]
        exact children

end Tree

end Trees

namespace Expr

variable {e : Expr α}

/-- Induction from the children of reachable nodes, with literals apart. -/
theorem Valid.literal_induction (valid : e.Valid) {P : NodeId → Prop}
    (literal : ∀ i v, e.nodes[i]? = some (.const v) → P i)
    (node : ∀ i n, e.Reachable i → e.nodes[i]? = some n → (∀ v, n ≠ .const v) →
      (∀ c ∈ n.flagExponent.children, P c.1) → P i) {i : NodeId} (reachable : e.Reachable i) :
    P i := by
  refine valid.reachable_induction (P := P) (fun i n reachable found each => ?_) reachable
  by_cases is_literal : ∃ v, n = .const v
  · obtain ⟨v, rfl⟩ := is_literal
    exact literal i v found
  · refine node i n reachable found (fun v same => is_literal ⟨v, same⟩) fun c member => ?_
    exact each c.1 (n.children_flagExponent ▸ List.mem_map_of_mem member)

theorem Valid.preorderAt_flagged (valid : e.Valid) {i : NodeId} {n : Node α NodeId}
    (found : e.nodes[i]? = some n) :
    e.preorderAt i = i :: n.flagExponent.children.flatMap fun c => e.preorderAt c.1 := by
  rw [valid.preorderAt_eq found, ← n.children_flagExponent, List.flatMap_map]

theorem Valid.paramIndices_unfold (valid : e.Valid) :
    e.unfold.paramIndices = e.preorder.filterMap fun i => e.nodes[i]?.bind Node.paramIndex? := by
  rw [Tree.paramIndices, ← valid.map_head_reachable, reachable, List.filterMap_map,
    List.filterMap_filterMap]
  refine List.filterMap_congr fun i _ => congrArg e.nodes[i]?.bind (funext fun n => ?_)
  exact n.paramIndex?_head

theorem Valid.paramIndices_eq_nil (valid : e.Valid) (param_free : ∀ i, ¬e.Reaches (.param i)) :
    e.unfold.paramIndices = [] := by
  rw [valid.paramIndices_unfold, List.filterMap_eq_nil_iff]
  intro i member
  cases found : e.nodes[i]? with
  | none => rfl
  | some n =>
      cases n with
      | param k => exact absurd ⟨i, Reachable.root.of_mem_preorderAt member, found⟩ (param_free k)
      | _ => rfl

section Occurrences

variable [Scalar α]

/-- The occurrences of literals that can be lifted below an index that may be an exponent, from left
to right. -/
def liftsAt (e : Expr α) (i : NodeId) (exponent : Bool) : List (NodeId × α) :=
  if exponent && e.isIntegralAt i then [] else e.liftableAt i

theorem liftsAt_const {i : NodeId} {v : α} (found : e.nodes[i]? = some (.const v))
    (exponent : Bool) :
    e.liftsAt i exponent = if Scalar.isLiftable exponent v then [(i, v)] else [] := by
  rw [liftsAt, isIntegralAt, found, liftableAt, found, Scalar.isLiftable]
  cases exponent && Scalar.isIntegral v <;> simp

theorem Valid.liftsAt_eq (valid : e.Valid) {i : NodeId} {n : Node α NodeId}
    (found : e.nodes[i]? = some n) (other : ∀ v, n ≠ .const v) (exponent : Bool) :
    e.liftsAt i exponent = n.flagExponent.children.flatMap fun c => e.liftsAt c.1 c.2 := by
  have child_lt := valid.child_lt found
  have integral : e.isIntegralAt i = false := by
    rw [isIntegralAt, found]
    cases n with
    | const v => exact absurd rfl (other v)
    | _ => rfl
  have below : n.children.flatMap (fun c => if c < i then e.liftableAt c else []) =
      (n.children.map fun c => (c, false)).flatMap fun c => e.liftsAt c.1 c.2 := by
    rw [List.flatMap_map]
    exact List.flatMap_congr fun c is_child => if_pos (child_lt c is_child)
  rw [liftsAt, integral, Bool.and_false, liftableAt, found]
  cases n with
  | const v => exact absurd rfl (other v)
  | binary op a b =>
      cases op with
      | pow =>
          have base_lt : a < i := child_lt a (by simp [Node.children])
          have exponent_lt : b < i := child_lt b (by simp [Node.children])
          cases integral : e.isIntegralAt b <;>
            simp [Node.flagExponent, Node.children, liftsAt, base_lt, exponent_lt, integral]
      | _ => exact below
  | _ => exact below

/-- The nodes of these occurrences. -/
def idsAt (e : Expr α) (i : NodeId) (exponent : Bool) : List NodeId :=
  (e.liftsAt i exponent).map Prod.fst

/-- The nodes of the occurrences that are lifted. -/
def liftedIds (e : Expr α) : List NodeId := e.liftable.map Prod.fst

theorem idsAt_const {i : NodeId} {v : α} (found : e.nodes[i]? = some (.const v)) (exponent : Bool) :
    e.idsAt i exponent = if Scalar.isLiftable exponent v then [i] else [] := by
  rw [idsAt, liftsAt_const found]
  split <;> rfl

theorem Valid.idsAt_eq (valid : e.Valid) {i : NodeId} {n : Node α NodeId}
    (found : e.nodes[i]? = some n) (other : ∀ v, n ≠ .const v) (exponent : Bool) :
    e.idsAt i exponent = n.flagExponent.children.flatMap fun c => e.idsAt c.1 c.2 := by
  rw [idsAt, valid.liftsAt_eq found other, List.map_flatMap]
  rfl

theorem Valid.map_snd_liftsAt (valid : e.Valid) {i : NodeId} (reachable : e.Reachable i) :
    ∀ exponent, (e.liftsAt i exponent).map Prod.snd = (e.treeAt i).liftables exponent := by
  refine valid.literal_induction
    (P := fun i => ∀ x, (e.liftsAt i x).map Prod.snd = (e.treeAt i).liftables x) ?_ ?_ reachable
  · intro i v found exponent
    rw [liftsAt_const found, valid.treeAt_eq found]
    change _ = (Tree.mk (.const v)).liftables exponent
    rw [Tree.liftables_const]
    split <;> rfl
  · intro i n _ found other each exponent
    rw [valid.liftsAt_eq found other, valid.treeAt_eq found,
      Tree.liftables_mk (Node.map_ne_const other), Node.flagExponent_map, Node.children_map,
      List.map_flatMap, List.flatMap_map]
    exact List.flatMap_congr fun c member => each c member c.2

theorem Valid.idsAt_sublist (valid : e.Valid) {i : NodeId} (reachable : e.Reachable i) :
    ∀ exponent, (e.idsAt i exponent).Sublist (e.preorderAt i) := by
  refine valid.literal_induction
    (P := fun i => ∀ x, (e.idsAt i x).Sublist (e.preorderAt i)) ?_ ?_ reachable
  · intro i v found exponent
    rw [idsAt_const found]
    split
    · exact List.singleton_sublist.mpr (mem_preorderAt_self found)
    · exact List.nil_sublist _
  · intro i n _ found other each exponent
    rw [valid.idsAt_eq found other, valid.preorderAt_flagged found]
    exact (List.Sublist.flatMap_right _ fun c member => each c member c.2).cons i

/-- Every node that is lifted occurs once. -/
def LiftsOnce (e : Expr α) : Prop := ∀ i ∈ e.liftedIds, e.preorder.count i = 1

instance (e : Expr α) : Decidable e.LiftsOnce :=
  inferInstanceAs (Decidable (∀ i ∈ e.liftedIds, e.preorder.count i = 1))

theorem LiftsOnce.nodup (once : e.LiftsOnce) (valid : e.Valid) : e.liftedIds.Nodup := by
  refine List.nodup_iff_count_le_one.mpr fun i => ?_
  by_cases member : i ∈ e.liftedIds
  · exact once i member ▸ (valid.idsAt_sublist .root false).count_le i
  · exact List.count_eq_zero.mpr member ▸ Nat.zero_le 1

theorem IsCompact.liftsOnce (compact : e.IsCompact) (valid : e.Valid) : e.LiftsOnce :=
  fun _ is_lifted => List.count_eq_one_of_mem (compact.nodup_preorder valid)
    ((valid.idsAt_sublist .root false).subset is_lifted)

/-- What is lifted anywhere and occurs in one part of the formula is lifted there, once. -/
def Separate (e : Expr α) (part lifted : List NodeId) : Prop :=
  ∀ i ∈ e.liftedIds, i ∈ part → i ∈ lifted ∧ part.count i = 1

theorem Separate.append {part part' lifted lifted' : List NodeId}
    (separate : e.Separate (part ++ part') (lifted ++ lifted')) (within : lifted ⊆ part)
    (within' : lifted' ⊆ part') : e.Separate part lifted ∧ e.Separate part' lifted' := by
  have alone {here there : List NodeId} {i : NodeId} (once : here.count i + there.count i = 1)
      (member : i ∈ here) : here.count i = 1 ∧ i ∉ there := by
    have positive := List.count_pos_iff.mpr member
    exact ⟨by omega, List.count_eq_zero.mp (by omega)⟩
  constructor
  · intro i is_lifted member
    obtain ⟨either, once⟩ := separate i is_lifted (List.mem_append_left _ member)
    obtain ⟨once, elsewhere⟩ := alone (List.count_append.symm.trans once) member
    exact ⟨(List.mem_append.mp either).resolve_right fun later => elsewhere (within' later), once⟩
  · intro i is_lifted member
    obtain ⟨either, once⟩ := separate i is_lifted (List.mem_append_right _ member)
    rw [List.count_append, Nat.add_comm] at once
    obtain ⟨once, elsewhere⟩ := alone once member
    exact ⟨(List.mem_append.mp either).resolve_left fun earlier => elsewhere (within earlier), once⟩

theorem Separate.of_cons {i : NodeId} {part lifted : List NodeId}
    (separate : e.Separate (i :: part) lifted) : e.Separate part lifted := by
  intro j is_lifted member
  obtain ⟨here, once⟩ := separate j is_lifted (List.mem_cons_of_mem i member)
  have positive := List.count_pos_iff.mpr member
  have le := (List.sublist_cons_self i part).count_le j
  exact ⟨here, by omega⟩

/-- The formula with its lifted nodes replaced in place. -/
def replaced (e : Expr α) : Expr α := ⟨e.parametrized e.liftedIds, e.root⟩

theorem found_of_mem_liftedIds {i : NodeId} (member : i ∈ e.liftedIds) :
    ∃ v, e.nodes[i]? = some (.const v) := by
  obtain ⟨entry, is_entry, rfl⟩ := List.mem_map.mp member
  exact ⟨entry.2, (literal_of_mem_liftableAt is_entry).1⟩

/-- A node that is lifted is replaced by one coefficient wherever it occurs, with the number of one
of its occurrences. -/
theorem exists_found_replaced {i : NodeId} (member : i ∈ e.liftedIds) :
    ∃ k, e.liftedIds[k]? = some i ∧
      e.replaced.nodes[i]? = some (.param (UInt64.ofNat k)) := by
  obtain ⟨v, found⟩ := found_of_mem_liftedIds member
  obtain ⟨after, before, split, last⟩ := List.eq_append_cons_of_mem (List.mem_reverse.mpr member)
  have ids_eq : e.liftedIds = before.reverse ++ i :: after.reverse := by
    rw [← List.reverse_reverse e.liftedIds, split]
    simp
  refine ⟨before.reverse.length, ?_, ?_⟩
  · rw [ids_eq, List.getElem?_append_right (Nat.le_refl _), Nat.sub_self]
    rfl
  · rw [replaced, ids_eq]
    exact getElem?_parametrized_of_last (Array.getElem?_eq_some_iff.mp found).1
      (mt List.mem_reverse.mp last)

theorem found_replaced_of_not_mem {i : NodeId} (outside : i ∉ e.liftedIds) :
    e.replaced.nodes[i]? = e.nodes[i]? := (e.getElem?_parametrized e.liftedIds i).1 outside

/-- Replacing the lifted nodes of one part of the formula numbers the literals of its tree, on from
the number of those lifted before. -/
def Numbers (e : Expr α) (i : NodeId) (exponent : Bool) : Prop :=
  ∀ before after, e.liftedIds = before ++ e.idsAt i exponent ++ after →
    e.Separate (e.preorderAt i) (e.idsAt i exponent) →
      (e.treeAt i).numbered exponent before.length =
        (e.replaced.treeAt i, before.length + (e.idsAt i exponent).length)

theorem mapM_numbered (cs : List (NodeId × Bool))
    (each : ∀ c ∈ cs, e.idsAt c.1 c.2 ⊆ e.preorderAt c.1 ∧ e.Numbers c.1 c.2)
    (before after : List NodeId)
    (ids_eq : e.liftedIds = before ++ (cs.flatMap fun c => e.idsAt c.1 c.2) ++ after)
    (separate : e.Separate (cs.flatMap fun c => e.preorderAt c.1)
      (cs.flatMap fun c => e.idsAt c.1 c.2)) :
    (cs.map fun c => (e.treeAt c.1).numbered c.2).mapM id before.length =
      (cs.map fun c => e.replaced.treeAt c.1,
        before.length + (cs.flatMap fun c => e.idsAt c.1 c.2).length) := by
  induction cs generalizing before with
  | nil => rfl
  | cons c cs ih =>
      obtain ⟨⟨within, numbers⟩, later⟩ := List.forall_mem_cons.mp each
      rw [List.flatMap_cons] at ids_eq
      rw [List.flatMap_cons, List.flatMap_cons] at separate
      have within' : (cs.flatMap fun c => e.idsAt c.1 c.2) ⊆
          cs.flatMap fun c => e.preorderAt c.1 := by
        intro i member
        obtain ⟨c, is_child, member⟩ := List.mem_flatMap.mp member
        exact List.mem_flatMap.mpr ⟨c, is_child, (later c is_child).1 member⟩
      obtain ⟨here, there⟩ := separate.append within within'
      have first := numbers before ((cs.flatMap fun c => e.idsAt c.1 c.2) ++ after)
        (by simpa [List.append_assoc] using ids_eq) here
      have rest := ih later (before ++ e.idsAt c.1 c.2)
        (by simpa [List.append_assoc] using ids_eq) there
      rw [List.length_append] at rest
      rw [List.map_cons, List.mapM_cons, List.flatMap_cons, List.length_append, ← Nat.add_assoc]
      change (let head := (e.treeAt c.1).numbered c.2 before.length
        let tail := (cs.map fun c => (e.treeAt c.1).numbered c.2).mapM id head.2
        (head.1 :: tail.1, tail.2)) = _
      rw [first]
      dsimp only
      rw [rest]
      rfl

theorem Valid.numbers (valid : e.Valid) (once : e.LiftsOnce) {i : NodeId}
    (reachable : e.Reachable i) : ∀ exponent, e.Numbers i exponent := by
  have ordered : e.replaced.nodes.Ordered := valid.ordered_parametrized e.liftedIds
  refine valid.literal_induction (P := fun i => ∀ x, e.Numbers i x) ?_ ?_ reachable
  · intro i v found exponent before after ids_eq separate
    have nodup := once.nodup valid
    rw [idsAt_const found] at ids_eq separate ⊢
    have tree_eq : e.treeAt i = .mk (.const v) := valid.treeAt_eq found
    rw [tree_eq, Tree.numbered_const]
    by_cases lifts : Scalar.isLiftable exponent v = true
    · rw [if_pos lifts] at ids_eq ⊢
      rw [if_pos lifts]
      -- Of several numbers the last counts, but no node is lifted twice.
      have last : i ∉ after := by
        rw [ids_eq, List.append_assoc] at nodup
        exact (List.nodup_cons.mp (List.nodup_append.mp nodup).2.1).1
      have found' : e.replaced.nodes[i]? = some (.param (UInt64.ofNat before.length)) := by
        rw [replaced, ids_eq, List.append_assoc]
        exact getElem?_parametrized_of_last (Array.getElem?_eq_some_iff.mp found).1 last
      rw [Expr.treeAt_eq found' (ordered _ _ found')]
      rfl
    · rw [if_neg lifts] at separate ⊢
      rw [if_neg lifts]
      -- A literal that stays is not lifted elsewhere, or it would be replaced here, too.
      have outside : i ∉ e.liftedIds := fun member =>
        absurd (separate i member (mem_preorderAt_self found)).1 List.not_mem_nil
      have found' : e.replaced.nodes[i]? = some (.const v) :=
        (found_replaced_of_not_mem outside).trans found
      rw [Expr.treeAt_eq found' (ordered _ _ found')]
      rfl
  · intro i n reachable found other each exponent before after ids_eq separate
    have outside : i ∉ e.liftedIds := fun member => by
      obtain ⟨v, literal⟩ := found_of_mem_liftedIds member
      exact other v (Option.some.inj (found.symm.trans literal))
    have found' : e.replaced.nodes[i]? = some n :=
      (found_replaced_of_not_mem outside).trans found
    have children : ∀ c ∈ n.flagExponent.children,
        e.idsAt c.1 c.2 ⊆ e.preorderAt c.1 ∧ e.Numbers c.1 c.2 := fun c member =>
      ⟨(valid.idsAt_sublist (.child reachable found
        (n.children_flagExponent ▸ List.mem_map_of_mem member)) c.2).subset, each c member c.2⟩
    rw [valid.idsAt_eq found other] at ids_eq separate ⊢
    rw [valid.preorderAt_flagged found] at separate
    have numbered := mapM_numbered n.flagExponent.children children before after ids_eq
      separate.of_cons
    rw [← Node.children_map, ← Node.mapM_children] at numbered
    obtain ⟨children_eq, state_eq⟩ := Prod.mk.inj numbered
    rw [valid.treeAt_eq found, Expr.treeAt_eq found' (ordered _ _ found'),
      Tree.numbered_mk (Node.map_ne_const other), Node.flagExponent_map, Node.map_map]
    refine Prod.ext (congrArg Tree.mk (Node.eq_of_children_eq ?_ ?_)) state_eq
    · rw [Node.mapM_head, Node.head_map, Node.head_map, Node.head_flagExponent]
    · rw [Node.children_map, ← n.children_flagExponent, List.map_map]
      exact children_eq

/-- If no node that is lifted is shared, replacing nodes numbers the literals of the tree. -/
theorem LiftsOnce.unfold_replaced (once : e.LiftsOnce) (valid : e.Valid) :
    e.replaced.unfold = (e.unfold.numbered false 0).1 := by
  have numbers := valid.numbers once .root false [] [] (List.append_nil _).symm
    fun i is_lifted _ => ⟨is_lifted, once i is_lifted⟩
  exact (congrArg Prod.fst numbers).symm

theorem preorderAt_replaced (e : Expr α) (i : NodeId) :
    e.replaced.preorderAt i = e.preorderAt i := by
  induction i using Nat.strongRecOn with
  | ind i ih =>
      have below (cs : List NodeId) :
          (cs.flatMap fun c => if c < i then e.replaced.preorderAt c else []) =
            cs.flatMap fun c => if c < i then e.preorderAt c else [] :=
        List.flatMap_congr fun c _ => by
          split
          · rename_i c_lt
            exact ih c c_lt
          · rfl
      rw [preorderAt, preorderAt]
      by_cases member : i ∈ e.liftedIds
      · obtain ⟨v, found⟩ := found_of_mem_liftedIds member
        obtain ⟨k, -, found'⟩ := exists_found_replaced member
        rw [found, found']
        rfl
      · rw [found_replaced_of_not_mem member]
        simp only [below]

theorem preorder_replaced (e : Expr α) : e.replaced.preorder = e.preorder :=
  e.preorderAt_replaced e.root

theorem Valid.freeConstantCount_eq (valid : e.Valid) :
    e.freeConstantCount = (e.unfold.liftables false).length := by
  rw [unfold_eq_treeAt, ← valid.map_snd_liftsAt .root false, List.length_map]
  rfl

/-- If replacing nodes numbers the literals of the tree, no node that is lifted is shared: it would
be one coefficient in two places, and the numbers are different. -/
theorem Valid.liftsOnce (valid : e.Valid) (replaced_valid : e.replaced.Valid)
    (param_free : ∀ i, ¬e.Reaches (.param i)) (countable : e.freeConstantCount ≤ 2 ^ 64)
    (unfold_eq : e.replaced.unfold = (e.unfold.numbered false 0).1) : e.LiftsOnce := by
  have numbers : e.replaced.unfold.paramIndices =
      (List.range' 0 e.freeConstantCount).map UInt64.ofNat := by
    rw [unfold_eq, valid.freeConstantCount_eq]
    exact (Tree.paramIndices_numbered (valid.paramIndices_eq_nil param_free) false 0).1
  have distinct : e.replaced.unfold.paramIndices.Nodup := by
    rw [numbers]
    refine (List.nodup_range' ..).map_on fun j j_mem k k_mem same => ?_
    have toNat_eq {k : Nat} (member : k ∈ List.range' 0 e.freeConstantCount) :
        (UInt64.ofNat k).toNat = k := by
      rw [List.mem_range'_1, Nat.zero_add] at member
      exact UInt64.toNat_ofNat_of_lt' (Nat.lt_of_lt_of_le member.2 countable)
    exact (toNat_eq j_mem).symm.trans ((congrArg UInt64.toNat same).trans (toNat_eq k_mem))
  intro i member
  by_contra shared
  have occurs : i ∈ e.preorder := (valid.idsAt_sublist .root false).subset member
  have twice : [i, i].Sublist e.preorder := by
    have positive := List.count_pos_iff.mpr occurs
    have two_le : 2 ≤ e.preorder.count i := by omega
    exact List.replicate_sublist_iff.mpr two_le
  obtain ⟨k, -, found⟩ := exists_found_replaced member
  have repeated : [UInt64.ofNat k, UInt64.ofNat k].Sublist e.replaced.unfold.paramIndices := by
    rw [replaced_valid.paramIndices_unfold, preorder_replaced]
    simpa [found, Node.paramIndex?] using
      twice.filterMap fun i => e.replaced.nodes[i]?.bind Node.paramIndex?
  exact List.nodup_iff_sublist.mp distinct _ repeated

/-- A lifted formula stands for the tree of the original with the literals that can be lifted
numbered from left to right, and every number occurs. -/
structure LiftsOccurrences (e lifted : Expr α) : Prop where
  unfold_eq : lifted.unfold = (e.unfold.numbered false 0).1
  param_occurs : ∀ k < e.freeConstantCount, lifted.Reaches (.param (UInt64.ofNat k))

theorem Valid.liftsOccurrences_iff (valid : e.Valid) (param_free : ∀ i, ¬e.Reaches (.param i))
    (countable : e.freeConstantCount ≤ 2 ^ 64) :
    LiftsOccurrences e (e.parametrize e.liftedIds) ↔ e.LiftsOnce := by
  have lifted_valid : (e.parametrize e.liftedIds).Valid :=
    (validate_eq_ok_iff _).mp (valid.inherits_parametrize e.liftedIds).accepted
  have stored : (e.parametrize e.liftedIds).unfold = e.replaced.unfold :=
    e.unfold_parametrize e.liftedIds
  constructor
  · intro lifts
    exact valid.liftsOnce (valid.parametrized_valid lifted_valid) param_free countable
      (stored.symm.trans lifts.unfold_eq)
  · intro once
    have unfold_eq := stored.trans (once.unfold_replaced valid)
    refine ⟨unfold_eq, fun k k_lt => ?_⟩
    have member : UInt64.ofNat k ∈ (e.parametrize e.liftedIds).unfold.paramIndices := by
      rw [unfold_eq, (Tree.paramIndices_numbered (valid.paramIndices_eq_nil param_free) false 0).1,
        ← valid.freeConstantCount_eq]
      exact List.mem_map_of_mem (by simpa [List.mem_range'_1] using k_lt)
    obtain ⟨h, is_head, index_eq⟩ := List.mem_filterMap.mp member
    obtain ⟨n, reaches, rfl⟩ := lifted_valid.exists_reaches_of_mem_heads is_head
    cases n with
    | param i =>
        cases index_eq
        exact reaches
    | _ => cases index_eq

end Occurrences

/-- Lifting, where its offsets can be drawn, makes a value for each literal occurrence of the tree
that can be lifted.  The lifted formula is the tree with these numbered from left to right if and
only if each node that is lifted occurs once, as every node of a compact formula does. -/
theorem lift_occurrences_iff {σ : Type} [WordSource σ] (e : Expr Float) (scale : Float) (source : σ)
    (accepted : e.validate = .ok ()) (param_free : ∀ i, ¬e.Reaches (.param i))
    (countable : e.freeConstantCount ≤ 2 ^ 64) :
    (e.lift scale source).1.2.length = e.freeConstantCount ∧
      e.freeConstantCount = (e.unfold.liftables false).length ∧
      (LiftsOccurrences e (e.lift scale source).1.1 ↔ e.LiftsOnce) ∧
      (e.IsCompact → e.LiftsOnce) := by
  have valid := (validate_eq_ok_iff e).mp accepted
  refine ⟨?_, valid.freeConstantCount_eq, valid.liftsOccurrences_iff param_free countable,
    fun compact => compact.liftsOnce valid⟩
  exact (length_perturb ..).trans (List.length_map _)

/-- The formula `2.5*x_0**2.0 + x_0**0.5` with the feature shared. -/
def powers : Expr Float :=
  ⟨#[.const 2.5, .var 0, .const 2, .binary .pow 1 2, .nary .mul [0, 3], .const 0.5,
    .binary .pow 1 5, .nary .add [4, 6]], 7⟩

theorem powers_lifted :
    powers.validate = .ok () ∧ (∀ i, ¬powers.Reaches (.param i)) ∧ powers.freeConstantCount = 2 ∧
      LiftsOccurrences powers (powers.lift 1e-5 (ChaCha.Generator.ofSeed 7 0)).1.1 := by
  have accepted : powers.validate = .ok () := by decide +kernel
  have param_free : ∀ i, ¬powers.Reaches (.param i) := fun i reaches => by
    simpa [powers] using reaches.mem
  have count_eq : powers.freeConstantCount = 2 := by decide +kernel
  have once : powers.LiftsOnce := by decide +kernel
  have occurrences := lift_occurrences_iff powers 1e-5 (ChaCha.Generator.ofSeed 7 0) accepted
    param_free (by rw [count_eq]; decide)
  exact ⟨accepted, param_free, count_eq, occurrences.2.2.1.mpr once⟩

/-- The formula `2.0*x_0**2.0` with the literal shared. -/
def sharedLiteral : Expr Float :=
  ⟨#[.var 0, .const 2, .binary .pow 0 1, .nary .mul [1, 2]], 3⟩

/-- A literal that is lifted in one place is replaced in the exponent, too. -/
theorem sharedLiteral_not_numbered :
    sharedLiteral.validate = .ok () ∧ (∀ i, ¬sharedLiteral.Reaches (.param i)) ∧
      sharedLiteral.freeConstantCount = 1 ∧ sharedLiteral.canLift 0 = true ∧
      (sharedLiteral.lift 0 (ChaCha.Generator.ofSeed 0 0)).1.1.unfold ≠
        (sharedLiteral.unfold.numbered false 0).1 := by
  refine ⟨by decide +kernel, fun i reaches => ?_, by decide +kernel, by decide +kernel, ?_⟩
  · simpa [sharedLiteral] using reaches.mem
  · intro same
    have stored := congrArg Tree.store same
    revert stored
    decide +kernel

end Expr

end FormulaFit
