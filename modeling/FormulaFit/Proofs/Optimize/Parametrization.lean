import FormulaFit.Optimize.Lift
import FormulaFit.Proofs.Arena.Occurrence
import FormulaFit.Proofs.Arena.Walks

/-!
# Coefficients in the place of literals

Numbering nodes as coefficients and writing values in the place of coefficients are walks along the
tree of a formula: the one stores the tree of the arena in which the nodes are replaced, the other
the tree with its coefficients replaced.  Lifting replaces only literals, so everything else that
occurs in a formula still occurs in its lifted form.
-/

namespace FormulaFit

variable {α : Type}

namespace Tree

variable {params : List α}

/-- The tree with the coefficients that have a value replaced by it. -/
def inserted (params : List α) : Tree α → Tree α :=
  fold fun n =>
    match n with
    | .param i =>
      match params[i.toNat]? with
      | some v => .mk (.const v)
      | none => .mk (.param i)
    | n => .mk n

theorem inserted_param {i : UInt64} {v : α} (supplied : params[i.toNat]? = some v) :
    (mk (.param i)).inserted params = mk (.const v) := by
  rw [inserted, fold_mk]
  simp only [Node.map, supplied]

theorem inserted_mk {n : Node α (Tree α)} (other : ∀ i, n ≠ .param i) :
    (mk n).inserted params = mk (n.map (inserted params)) := by
  rw [inserted, fold_mk]
  cases n with
  | param i => exact absurd rfl (other i)
  | _ => rfl

end Tree

namespace Expr

/-- Insertion stores the tree with the coefficients replaced. -/
theorem insertParams_eq (params : List α) (e : Expr α) :
    e.insertParams params = (e.unfold.inserted params).store := by
  have push_eq : (e.unfold.inserted params).push =
      e.unfold.fold fun n => n.mapM id >>= insertParam params := by
    induction e.unfold using Tree.induction with
    | step n each =>
        by_cases is_param : ∃ i, n = .param i
        · obtain ⟨i, rfl⟩ := is_param
          rw [Tree.inserted, Tree.fold_mk, Tree.fold_mk]
          simp only [Node.map, Node.mapM, pure_bind, insertParam]
          cases params[i.toNat]? with
          | some v => rfl
          | none => rfl
        · have other : ∀ i, n ≠ .param i := fun i same => is_param ⟨i, same⟩
          rw [Tree.inserted_mk other, Tree.push, Tree.fold_mk, Tree.fold_mk, Node.map_map]
          rw [← Node.map_congr each]
          cases n with
          | param i => exact absurd rfl (other i)
          | _ => rfl
  rw [insertParams, rebuild_eq]
  exact congrArg (fun write : StateM (Arena α) NodeId => Expr.mk (write #[]).2 (write #[]).1)
    push_eq.symm

@[simp]
theorem unfold_insertParams (params : List α) (e : Expr α) :
    (e.insertParams params).unfold = e.unfold.inserted params := by
  rw [insertParams_eq, Tree.unfold_store]

/-- The arena of a formula with the nodes at some indices replaced by coefficients. -/
def parametrized (e : Expr α) (ids : List NodeId) : Arena α :=
  ids.zipIdx.foldl (fun nodes (id, k) => nodes.setIfInBounds id (.param (UInt64.ofNat k))) e.nodes

theorem getElem?_foldl_param (items : List (NodeId × Nat)) (nodes : Arena α) (i : NodeId) :
    let result := items.foldl
      (fun nodes (id, k) => nodes.setIfInBounds id (.param (UInt64.ofNat k))) nodes
    (i ∉ items.map Prod.fst → result[i]? = nodes[i]?) ∧
      ∀ n, result[i]? = some n →
        nodes[i]? = some n ∨ ∃ item ∈ items, n = .param (UInt64.ofNat item.2) := by
  induction items generalizing nodes with
  | nil => exact ⟨fun _ => rfl, fun n found => .inl found⟩
  | cons item items ih =>
      obtain ⟨id, k⟩ := item
      obtain ⟨kept, made⟩ := ih (nodes.setIfInBounds id (.param (UInt64.ofNat k)))
      constructor
      · intro outside
        simp only [List.map_cons, List.mem_cons, not_or] at outside
        exact (kept outside.2).trans (Array.getElem?_setIfInBounds_ne (Ne.symm outside.1))
      · intro n found
        rcases made n found with found | ⟨item, member, rfl⟩
        · rw [Array.getElem?_setIfInBounds] at found
          split at found
          · split at found
            · exact .inr ⟨_, List.mem_cons_self, (Option.some.inj found).symm⟩
            · cases found
          · exact .inl found
        · exact .inr ⟨item, List.mem_cons_of_mem _ member, rfl⟩

theorem size_foldl_param (items : List (NodeId × Nat)) (nodes : Arena α) :
    (items.foldl (fun nodes (id, k) => nodes.setIfInBounds id (.param (UInt64.ofNat k)))
      nodes).size = nodes.size := by
  induction items generalizing nodes with
  | nil => rfl
  | cons item items ih => exact (ih _).trans Array.size_setIfInBounds

theorem getElem?_parametrized (e : Expr α) (ids : List NodeId) (i : NodeId) :
    (i ∉ ids → (e.parametrized ids)[i]? = e.nodes[i]?) ∧
      ∀ n, (e.parametrized ids)[i]? = some n →
        e.nodes[i]? = some n ∨ ∃ k < ids.length, n = .param (UInt64.ofNat k) := by
  obtain ⟨kept, made⟩ := getElem?_foldl_param ids.zipIdx e.nodes i
  refine ⟨fun outside => kept (by simpa using outside), fun n found => ?_⟩
  refine (made n found).imp id fun ⟨item, member, node_eq⟩ => ⟨item.2, ?_, node_eq⟩
  exact (List.getElem?_eq_some_iff.mp (List.mem_zipIdx_iff_getElem?.mp member)).1

/-- An index is replaced by the number of its last place. -/
theorem getElem?_parametrized_of_last {e : Expr α} {before after : List NodeId} {i : NodeId}
    (i_lt : i < e.nodes.size) (last : i ∉ after) :
    (e.parametrized (before ++ i :: after))[i]? = some (.param (UInt64.ofNat before.length)) := by
  rw [parametrized, List.zipIdx_append, List.zipIdx_cons, List.foldl_append, List.foldl_cons,
    (getElem?_foldl_param _ _ i).1 (by simpa using last)]
  simp [size_foldl_param, i_lt]

theorem size_parametrized (e : Expr α) (ids : List NodeId) :
    (e.parametrized ids).size = e.nodes.size := size_foldl_param ids.zipIdx e.nodes

theorem getElem?_parametrized_eq (e : Expr α) (ids : List NodeId) (i : NodeId) :
    (e.parametrized ids)[i]? = e.nodes[i]?.map fun n =>
      match number? ids i with
      | some k => .param (UInt64.ofNat k)
      | none => n := by
  have written (items : List (NodeId × Nat)) (nodes : Arena α) (found : Option Nat)
      (at_i : nodes[i]? = e.nodes[i]?.map fun n =>
        match found with
        | some k => .param (UInt64.ofNat k)
        | none => n) :
      (items.foldl (fun nodes (id, k) => nodes.setIfInBounds id (.param (UInt64.ofNat k))) nodes)[i]?
        = e.nodes[i]?.map fun n =>
          match items.foldl (fun found (id, k) => if id = i then some k else found) found with
          | some k => .param (UInt64.ofNat k)
          | none => n := by
    induction items generalizing nodes found with
    | nil => exact at_i
    | cons item items ih =>
        obtain ⟨id, k⟩ := item
        refine ih _ _ ?_
        dsimp only
        by_cases same : id = i
        · subst same
          rw [if_pos rfl, Array.getElem?_setIfInBounds_self]
          cases stored : e.nodes[id]? with
          | none =>
              rw [stored, Option.map_none, Array.getElem?_eq_none_iff] at at_i
              rw [if_neg (Nat.not_lt.mpr at_i), Option.map_none]
          | some n =>
              rw [stored, Option.map_some] at at_i
              rw [if_pos (Array.getElem?_eq_some_iff.mp at_i).1, Option.map_some]
        · rw [if_neg same, Array.getElem?_setIfInBounds_ne same]
          exact at_i
  exact written ids.zipIdx e.nodes none (by simp)

/-- Numbering nodes as coefficients stores the tree of the arena in which they are replaced. -/
theorem parametrize_eq (e : Expr α) (ids : List NodeId) :
    e.parametrize ids = (unfold ⟨e.parametrized ids, e.root⟩).store := by
  have push_eq (i : NodeId) :
      (treeAt ⟨e.parametrized ids, e.root⟩ i).push =
        e.foldAt (Arena.push (.symbol .nan)) (fun i n =>
          match number? ids i with
          | some k => Arena.push (.param (UInt64.ofNat k))
          | none => do Arena.push (← n.mapM id)) i := by
    induction i using Nat.strongRecOn with
    | ind i ih =>
        rw [treeAt_eq_match, getElem?_parametrized_eq, foldAt]
        cases e.nodes[i]? with
        | none => rfl
        | some n =>
            dsimp only [Option.map_some]
            cases number? ids i with
            | some k => rfl
            | none =>
                dsimp only
                rw [Tree.push, Tree.fold_mk, Node.map_map]
                refine congrArg (fun n : Node α (StateM (Arena α) NodeId) => do
                  Arena.push (← n.mapM id)) (Node.map_congr fun c _ => ?_)
                by_cases earlier : c < i
                · rw [Function.comp_apply, if_pos earlier, if_pos earlier]
                  exact ih c earlier
                · rw [Function.comp_apply, if_neg earlier, if_neg earlier]
                  rfl
  exact congrArg (fun write : StateM (Arena α) NodeId => Expr.mk (write #[]).2 (write #[]).1)
    (push_eq e.root).symm

theorem unfold_parametrize (e : Expr α) (ids : List NodeId) :
    (e.parametrize ids).unfold = unfold ⟨e.parametrized ids, e.root⟩ := by
  rw [parametrize_eq, Tree.unfold_store]

theorem Valid.ordered_parametrized {e : Expr α} (valid : e.Valid) (ids : List NodeId) :
    (e.parametrized ids).Ordered := by
  intro i n found c is_child
  rcases (e.getElem?_parametrized ids i).2 n found with found | ⟨k, -, rfl⟩
  · exact valid.child_lt found c is_child
  · cases is_child

theorem literal_of_mem_liftableAt [Scalar α] {e : Expr α} {i : NodeId} {entry : NodeId × α}
    (member : entry ∈ e.liftableAt i) :
    e.nodes[entry.1]? = some (.const entry.2) ∧ Scalar.isFinite entry.2 = true := by
  induction i using Nat.strongRecOn with
  | ind i ih =>
      have below {c : NodeId} (member : entry ∈ if c < i then e.liftableAt c else []) :
          e.nodes[entry.1]? = some (.const entry.2) ∧ Scalar.isFinite entry.2 = true := by
        split at member
        · rename_i c_lt
          exact ih c c_lt member
        · cases member
      rw [liftableAt] at member
      split at member
      · rename_i v found
        split at member
        · rename_i finite
          obtain rfl := List.mem_singleton.mp member
          exact ⟨found, finite⟩
        · cases member
      · rename_i base exponent found
        rcases List.mem_append.mp member with member | member
        · exact below member
        · split at member
          · rename_i fractional
            rw [Bool.and_eq_true, decide_eq_true_eq] at fractional
            exact ih exponent fractional.1 member
          · cases member
      · obtain ⟨c, -, member⟩ := List.mem_flatMap.mp member
        exact below member
      · cases member

section Offsets

variable {σ : Type} [WordSource σ]

/-- The offsets of all constants that occur more than once can be drawn. -/
def canPerturb (scale : Float) (constants : List Float) : Bool :=
  !(constants.any fun v => isRepeated constants v && 0 < scale) || Random.isDrawable (-scale) scale

/-- The values of constants moved as they are where all offsets can be drawn. -/
def perturb (scale : Float) (constants : List Float) : List Float → σ → List Float × σ
  | [], source => ([], source)
  | v :: vs, source =>
    let (offset, source) :=
      if isRepeated constants v && 0 < scale then Random.uniform (-scale) scale source
      else (0, source)
    let (values, source) := perturb scale constants vs source
    ((v + offset) :: values, source)

/-- The constants can be lifted with offsets up to a scale. -/
def canLift (scale : Float) (e : Expr Float) : Bool := canPerturb scale (e.liftable.map Prod.snd)

/-- The formula with its constants lifted, and the initial values of the coefficients, as they are
where all offsets can be drawn.  Without them there is no result, see `lift?_eq`. -/
def lift (scale : Float) (e : Expr Float) (source : σ) : (Expr Float × List Float) × σ :=
  let found := e.liftable
  let constants := found.map Prod.snd
  let (values, source) := perturb scale constants constants source
  ((e.parametrize (found.map Prod.fst), values), source)

/-- Constants cannot be moved exactly if one of them is to be moved by an offset that cannot be
drawn. -/
theorem perturb?_eq (scale : Float) (constants vs : List Float) (source : σ) :
    perturb? scale constants vs source =
      if !(vs.any fun v => isRepeated constants v && decide (0 < scale)) ||
          Random.isDrawable (-scale) scale then
        some (perturb scale constants vs source)
      else none := by
  induction vs generalizing source with
  | nil => rfl
  | cons v vs ih =>
      rw [perturb?, perturb, List.any_cons]
      cases moved : (isRepeated constants v && decide (0 < scale)) with
      | false =>
          simp only [Bool.false_eq_true, if_false, Option.bind_eq_bind, Option.bind_some, ih,
            Bool.false_or]
          split <;> rfl
      | true =>
          cases drawable : Random.isDrawable (-scale) scale with
          | false => simp [Random.uniform?, drawable]
          | true =>
              simp only [Random.uniform?, drawable, if_true, Option.bind_eq_bind,
                Option.bind_some, ih, Bool.or_true]
              rfl

/-- Lifting gives a result exactly if all offsets can be drawn. -/
theorem lift?_eq (scale : Float) (e : Expr Float) (source : σ) :
    e.lift? scale source = if e.canLift scale then some (e.lift scale source) else none := by
  rw [lift?, perturb?_eq, canLift, canPerturb]
  split <;> rfl

theorem lift?_eq_some_iff {scale : Float} {e : Expr Float} {source : σ}
    {result : (Expr Float × List Float) × σ} :
    e.lift? scale source = some result ↔
      e.canLift scale = true ∧ e.lift scale source = result := by
  rw [lift?_eq]
  split
  · rename_i can
    simp [can]
  · rename_i cannot
    simp [cannot]

end Offsets

theorem Valid.head_mem_heads_lift {σ : Type} [WordSource σ] {e : Expr Float} (valid : e.Valid)
    (scale : Float) (source : σ) {n : Node Float NodeId} (reaches : e.Reaches n)
    (other : ∀ v, n ≠ .const v) : n.head ∈ (e.lift scale source).1.1.unfold.heads := by
  let ids := e.liftable.map Prod.fst
  let lifted : Expr Float := ⟨e.parametrized ids, e.root⟩
  have kept {i : NodeId} {m : Node Float NodeId} (found : e.nodes[i]? = some m)
      (other : ∀ v, m ≠ .const v) : lifted.nodes[i]? = some m := by
    refine ((e.getElem?_parametrized ids i).1 fun member => ?_).trans found
    obtain ⟨entry, is_entry, rfl⟩ := List.mem_map.mp member
    have literal := (literal_of_mem_liftableAt is_entry).1
    exact other entry.2 (Option.some.inj (found.symm.trans literal))
  have ordered : lifted.nodes.Ordered := valid.ordered_parametrized ids
  have reachable {i : NodeId} (reachable : e.Reachable i) : lifted.Reachable i := by
    induction reachable with
    | root => exact .root
    | child _ found is_child ih =>
        refine .child ih (kept found ?_) is_child
        rintro v rfl
        cases is_child
  obtain ⟨i, reachable_i, found⟩ := reaches
  have unfold_eq : (e.lift scale source).1.1.unfold = lifted.unfold := e.unfold_parametrize ids
  rw [unfold_eq]
  exact Reaches.head_mem_heads ordered ⟨i, reachable reachable_i, kept found other⟩

end Expr

end FormulaFit
