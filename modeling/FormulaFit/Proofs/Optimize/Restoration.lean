import FormulaFit.Proofs.Optimize.Lifting
import FormulaFit.Proofs.Program.Coefficients

/-!
# Putting initial values back

Lifting takes constants out of a formula, and insertion writes values in their place.  If no
constant is moved, the values are the constants after adding an offset of zero, which turns minus
zero into zero and changes nothing else; so insertion restores the tree, however the arena is
shared.  And whatever the values are, a formula into which they are inserted evaluates as the lifted
one does with them as its coefficients.
-/

namespace FormulaFit

theorem countP_eq_le_one {α : Type} [DecidableEq α] {items : List α} (distinct : items.Nodup)
    (v : α) : (items.countP fun w => decide (w = v)) ≤ 1 :=
  List.nodup_iff_count_le_one.mp distinct v

theorem Double.add_zero_of_finite {v : Float} (finite : v.isFinite = true) :
    v + 0 = if v = -0 then 0 else v := by
  have packed {u : Float.Model.UnpackedFloat} (unpacked : v.toModel.unpack = u) :
      v = Float.ofModel (Float.Model.pack u) := by rw [← unpacked, ofModel_pack_unpack]
  change v.toModel.unpack.isFinite = true at finite
  cases unpacked : v.toModel.unpack with
  | zero sign =>
      rw [packed unpacked]
      cases sign <;> decide +kernel
  | finite sign mantissa exponent mantissa_pos =>
      have other : v ≠ -0 := fun is_zero => by
        rw [is_zero] at unpacked
        cases unpacked
      rw [if_neg other]
      change Float.ofModel
        (Float.Model.pack (.add .binary64 v.toModel.unpack (.zero .positive))) = v
      rw [unpacked]
      exact (packed unpacked).symm
  | _ =>
      rw [unpacked] at finite
      cases finite

namespace Tree

variable {α : Type} {params : List α}

theorem value?_inserted [Scalar α] (placeholder : α) (row : Array α) (t : Tree α) :
    (t.inserted params).value? placeholder row #[] = t.value? placeholder row params.toArray := by
  induction t using Tree.induction with
  | step n each =>
      by_cases is_param : ∃ i, n = .param i
      · obtain ⟨i, rfl⟩ := is_param
        rw [inserted, fold_mk]
        simp only [Node.map]
        cases supplied : params[i.toNat]? with
        | some v => simp [value?_mk, Node.map, Node.value?, supplied]
        | none => simp [value?_mk, Node.map, Node.value?, supplied]
      · have other : ∀ i, n ≠ .param i := fun i same => is_param ⟨i, same⟩
        have same : ∀ t ∈ n.children,
            (value? placeholder row #[] ∘ inserted params) t =
              value? placeholder row params.toArray t := each
        rw [inserted_mk other, value?_mk, value?_mk, Node.map_map, Node.map_congr same]
        cases n with
        | param i => exact absurd rfl (other i)
        | binary op a b => cases op <;> rfl
        | _ => rfl

end Tree

namespace Expr

section Evaluation

variable {e : Expr Float} {params : List Float}

theorem Valid.evaluate_insertParams (valid : e.Valid)
    (count_eq : e.paramCount.toNat = params.length)
    (supplied : ∀ i, e.Reaches (.param i) → i.toNat < params.length)
    {options : CompileOptions Float} {p q : Program Float}
    (inserted : (e.insertParams params).compile options = .ok p)
    (compiled : e.compile options = .ok q) (x : Matrix Float) :
    p.evaluate x #[] = q.evaluate x params.toArray := by
  have lowers := lowers_of_compile compiled
  have inserted_valid := valid_of_compile inserted
  have none_left : (e.insertParams params).paramCount = 0 :=
    paramCount_eq_zero inserted_valid (valid.not_reaches_insertParams supplied)
  rw [(lowers_of_compile inserted).evaluate_eq_tree inserted_valid, lowers.evaluate_eq_tree valid,
    Tree.evaluate, Tree.evaluate, none_left, count_eq, unfold_insertParams]
  have none_needed : ¬(#[] : Array Float).size ≠ (0 : UInt64).toNat := not_not.mpr rfl
  have all_supplied : ¬params.toArray.size ≠ params.length := not_not.mpr List.size_toArray
  by_cases wide : options.featureCount ≤ x.cols
  · have countable : ¬e.Reaches (.param Program.uncountable) := fun reaches => by
      have below := supplied _ reaches
      have counted := e.paramCount.toNat_lt
      have greatest : Program.uncountable.toNat = 2 ^ 64 - 1 := rfl
      omega
    have needed : params.toArray.size = q.paramCount := by
      rw [lowers.paramCount_eq_toNat valid, count_eq]
      rfl
    have values (row : Array Float) (member : row ∈ x.rowList) :=
      lowers.value?_unfold valid
        (lowers.fits valid countable (x.size_of_mem_rowList member ▸ wide) needed)
    have rows_eq : x.rowList.mapM
          (fun row => (e.unfold.inserted params).valueAt options.divisionPlaceholder row #[]) =
        x.rowList.mapM
          (fun row => e.unfold.valueAt options.divisionPlaceholder row params.toArray) := by
      have original (row : Array Float) (member : row ∈ x.rowList) :
          e.unfold.valueAt options.divisionPlaceholder row params.toArray =
            .ok ((q.rowSlots row params.toArray).getD (q.instrs.size - 1) 0) := by
        rw [Tree.valueAt, values row member]
      rw [mapM_eq_ok original]
      refine mapM_eq_ok fun row member => ?_
      rw [Tree.valueAt, Tree.value?_inserted, values row member]
    rw [if_neg none_needed, if_neg all_supplied, if_neg (Nat.not_lt.mpr wide),
      if_neg (Nat.not_lt.mpr wide), rows_eq]
  · rw [if_neg none_needed, if_neg all_supplied, if_pos (Nat.not_le.mp wide),
      if_pos (Nat.not_le.mp wide)]
    rfl

end Evaluation

section Lifted

variable {e : Expr Float}

theorem Valid.paramCount_parametrize_le (valid : e.Valid)
    (lifted_valid : (e.parametrize e.liftedIds).Valid) (param_free : ∀ i, ¬e.Reaches (.param i))
    (countable : e.freeConstantCount < 2 ^ 64) :
    (e.parametrize e.liftedIds).paramCount.toNat ≤ e.freeConstantCount := by
  have toNat_eq {k : Nat} (k_le : k ≤ e.freeConstantCount) : (UInt64.ofNat k).toNat = k :=
    UInt64.toNat_ofNat_of_lt' (Nat.lt_of_le_of_lt k_le countable)
  suffices (e.parametrize e.liftedIds).paramCount ≤ UInt64.ofNat e.freeConstantCount by
    rwa [UInt64.le_iff_toNat_le, toNat_eq (Nat.le_refl _)] at this
  rw [paramCount_eq, Program.foldl_countIndex_le_iff]
  refine ⟨UInt64.zero_le, fun i member => ?_⟩
  obtain ⟨n, member, index_eq⟩ := List.mem_filterMap.mp member
  cases n <;> cases index_eq
  rcases valid.param_of_parametrize lifted_valid (lifted_valid.mem_reachable_iff.mp member) with
    reaches | ⟨k, k_lt, rfl⟩
  · exact absurd reaches (param_free i)
  · rw [liftedIds, List.length_map] at k_lt
    rw [UInt64.le_iff_toNat_le, UInt64.toNat_add, toNat_eq (Nat.le_of_lt k_lt),
      toNat_eq (Nat.le_refl _)]
    exact Nat.le_trans (Nat.mod_le ..) k_lt

/-- No later occurrence takes the place of the last one, so its number is in the lifted formula. -/
theorem Valid.reaches_last_param (valid : e.Valid)
    (lifted_valid : (e.parametrize e.liftedIds).Valid) {before : List NodeId} {last : NodeId}
    (ids_eq : e.liftedIds = before ++ [last]) :
    (e.parametrize e.liftedIds).Reaches (.param (UInt64.ofNat before.length)) := by
  have member : last ∈ e.liftedIds := by
    rw [ids_eq]
    exact List.mem_append_right before List.mem_cons_self
  obtain ⟨v, found⟩ := found_of_mem_liftedIds member
  have found' : e.replaced.nodes[last]? = some (.param (UInt64.ofNat before.length)) := by
    rw [replaced, ids_eq]
    exact getElem?_parametrized_of_last (Array.getElem?_eq_some_iff.mp found).1 List.not_mem_nil
  have listed : last ∈ e.replaced.preorder :=
    e.preorder_replaced ▸ (valid.idsAt_sublist .root false).subset member
  have replaced_valid : e.replaced.Valid := valid.parametrized_valid lifted_valid
  have named := Reaches.head_mem_heads replaced_valid.ordered
    ⟨last, Reachable.root.of_mem_preorderAt listed, found'⟩
  have unfold_eq : (e.parametrize e.liftedIds).unfold = e.replaced.unfold :=
    e.unfold_parametrize e.liftedIds
  rw [← unfold_eq] at named
  obtain ⟨n, reaches, head_eq⟩ := lifted_valid.exists_reaches_of_mem_heads named
  cases n <;> cases head_eq
  exact reaches

/-- A lifted formula counts as many coefficients as occurrences of literals were lifted, although
shared nodes leave some of the numbers out. -/
theorem Valid.paramCount_parametrize (valid : e.Valid) (param_free : ∀ i, ¬e.Reaches (.param i))
    (countable : e.freeConstantCount < 2 ^ 64) :
    (e.parametrize e.liftedIds).paramCount.toNat = e.freeConstantCount := by
  have lifted_valid : (e.parametrize e.liftedIds).Valid :=
    (validate_eq_ok_iff _).mp (valid.inherits_parametrize e.liftedIds).accepted
  refine Nat.le_antisymm (valid.paramCount_parametrize_le lifted_valid param_free countable) ?_
  have length_eq : e.liftedIds.length = e.freeConstantCount := List.length_map _
  rcases List.eq_nil_or_concat' e.liftedIds with none_lifted | ⟨before, last, ids_eq⟩
  · rw [← length_eq, none_lifted]
    exact Nat.zero_le _
  · rw [ids_eq, List.length_append, List.length_singleton] at length_eq
    have reaches := valid.reaches_last_param lifted_valid ids_eq
    have listed : UInt64.ofNat before.length ∈
        (e.parametrize e.liftedIds).reachable.filterMap Node.paramIndex? :=
      List.mem_filterMap.mpr ⟨_, lifted_valid.mem_reachable_iff.mpr reaches, rfl⟩
    have before_lt : before.length < e.freeConstantCount := by omega
    have toNat_eq : (UInt64.ofNat before.length).toNat = before.length :=
      UInt64.toNat_ofNat_of_lt' (Nat.lt_trans before_lt countable)
    have counted := Program.lt_foldl_countIndex listed fun same => by
      have same := congrArg UInt64.toNat same
      have greatest : Program.uncountable.toNat = 2 ^ 64 - 1 := rfl
      omega
    rw [← paramCount_eq, toNat_eq] at counted
    omega

/-- The formula with the literals minus zero that are lifted as zeros. -/
def withoutMinusZeros (e : Expr Float) : Expr Float :=
  ⟨e.nodes.mapIdx fun i n => if i ∈ e.liftedIds ∧ n = .const (-0) then .const 0 else n, e.root⟩

theorem getElem?_withoutMinusZeros {i : NodeId} {n : Node Float NodeId}
    (found : e.nodes[i]? = some n) :
    e.withoutMinusZeros.nodes[i]? =
      some (if i ∈ e.liftedIds ∧ n = .const (-0) then .const 0 else n) := by
  rw [withoutMinusZeros, Array.getElem?_mapIdx, found]
  rfl

theorem Valid.ordered_withoutMinusZeros (valid : e.Valid) : e.withoutMinusZeros.nodes.Ordered := by
  intro i n found c is_child
  rw [withoutMinusZeros, Array.getElem?_mapIdx, Option.map_eq_some_iff] at found
  obtain ⟨m, found, rfl⟩ := found
  split at is_child
  · cases is_child
  · exact valid.child_lt found c is_child

theorem withoutMinusZeros_eq (none_lifted : ∀ entry ∈ e.liftable, entry.2 ≠ -0) :
    e.withoutMinusZeros = e := by
  have nodes_eq : e.withoutMinusZeros.nodes = e.nodes := by
    refine Array.ext_getElem? fun i => ?_
    cases found : e.nodes[i]? with
    | none =>
        rw [withoutMinusZeros, Array.getElem?_mapIdx, found]
        rfl
    | some n =>
        rw [getElem?_withoutMinusZeros found, if_neg]
        rintro ⟨member, rfl⟩
        obtain ⟨entry, is_entry, rfl⟩ := List.mem_map.mp member
        have literal := (literal_of_mem_liftableAt is_entry).1
        have same := Node.const.inj (Option.some.inj (found.symm.trans literal))
        exact none_lifted entry is_entry same.symm
  cases e
  exact congrArg (Expr.mk · _) nodes_eq

/-- Inserting the literals that are lifted, with zero added to each of them, restores every part of
the formula.  A node that is lifted at several places is named after one of them, and all of them
have its literal as their value. -/
theorem Valid.inserted_treeAt (valid : e.Valid) (param_free : ∀ i, ¬e.Reaches (.param i))
    (countable : e.freeConstantCount < 2 ^ 64) {i : NodeId} (reachable : e.Reachable i) :
    (e.replaced.treeAt i).inserted ((e.liftable.map Prod.snd).map (· + 0)) =
      e.withoutMinusZeros.treeAt i := by
  have ordered : e.replaced.nodes.Ordered := valid.ordered_parametrized e.liftedIds
  refine valid.reachable_induction (P := fun i =>
    (e.replaced.treeAt i).inserted ((e.liftable.map Prod.snd).map (· + 0)) =
      e.withoutMinusZeros.treeAt i) (fun i n reachable found each => ?_) reachable
  have restored := getElem?_withoutMinusZeros found
  rw [Expr.treeAt_eq restored (valid.ordered_withoutMinusZeros _ _ restored)]
  by_cases member : i ∈ e.liftedIds
  · obtain ⟨k, at_k, found'⟩ := exists_found_replaced member
    rw [liftedIds, List.getElem?_map, Option.map_eq_some_iff] at at_k
    obtain ⟨entry, at_k, rfl⟩ := at_k
    obtain ⟨literal, finite⟩ := literal_of_mem_liftableAt (List.mem_of_getElem? at_k)
    obtain rfl := Option.some.inj (found.symm.trans literal)
    have k_lt : k < 2 ^ 64 := Nat.lt_trans (List.getElem?_eq_some_iff.mp at_k).1 countable
    have supplied : ((e.liftable.map Prod.snd).map (· + 0))[(UInt64.ofNat k).toNat]? =
        some (entry.2 + 0) := by
      rw [UInt64.toNat_ofNat_of_lt' k_lt, List.getElem?_map, List.getElem?_map, at_k]
      rfl
    rw [Expr.treeAt_eq found' (ordered _ _ found'), Node.map, Tree.inserted_param supplied,
      Double.add_zero_of_finite finite]
    by_cases is_zero : entry.2 = -0
    · rw [if_pos is_zero, if_pos ⟨member, congrArg Node.const is_zero⟩]
      rfl
    · rw [if_neg is_zero, if_neg fun both => is_zero (Node.const.inj both.2)]
      rfl
  · have found' := (found_replaced_of_not_mem member).trans found
    have other (k : UInt64) : n.map e.replaced.treeAt ≠ .param k := fun same => by
      cases n <;> cases same
      exact param_free k ⟨i, reachable, found⟩
    rw [Expr.treeAt_eq found' (ordered _ _ found'), Tree.inserted_mk other, Node.map_map,
      if_neg fun both => member both.1]
    exact congrArg Tree.mk (Node.map_congr each)

end Lifted

section Offsets

variable {scale : Float} {constants : List Float}

/-- No constant is moved: there are no offsets, or no constant occurs twice. -/
def KeepsConstants (scale : Float) (constants : List Float) : Prop :=
  ¬0 < scale ∨ constants.Nodup

theorem KeepsConstants.unmoved (keeps : KeepsConstants scale constants) (v : Float) :
    (isRepeated constants v && decide (0 < scale)) = false := by
  rcases keeps with no_offset | distinct
  · rw [decide_eq_false no_offset, Bool.and_false]
  · rw [isRepeated, decide_eq_false (Nat.not_lt.mpr (countP_eq_le_one distinct v)), Bool.false_and]

theorem KeepsConstants.perturb_eq {σ : Type} [WordSource σ] (keeps : KeepsConstants scale constants)
    (values : List Float) (source : σ) :
    perturb scale constants values source = (values.map (· + 0), source) := by
  induction values with
  | nil => rfl
  | cons v values ih =>
      rw [perturb, keeps.unmoved, List.map_cons]
      simp [ih]

theorem KeepsConstants.canLift {e : Expr Float}
    (keeps : KeepsConstants scale (e.liftable.map Prod.snd)) : e.canLift scale = true := by
  rw [Expr.canLift, canPerturb]
  simp [keeps.unmoved]

end Offsets

/-- The formula with its constants lifted and their initial values put back. -/
def reinserted {σ : Type} [WordSource σ] (scale : Float) (e : Expr Float) (source : σ) :
    Expr Float :=
  (e.lift scale source).1.1.insertParams (e.lift scale source).1.2

/-- Where no constant is moved, putting the initial values back restores the tree of the formula, up
to lifted literals minus zero, which become zero.  Whatever offsets are drawn, the formula with the
values put back evaluates as the lifted one does with the values as its coefficients. -/
theorem lift_insert_restores {σ : Type} [WordSource σ] (e : Expr Float)
    (accepted : e.validate = .ok ()) (param_free : ∀ i, ¬e.Reaches (.param i))
    (countable : e.freeConstantCount < 2 ^ 64) (scale : Float) (source : σ) :
    (KeepsConstants scale (e.liftable.map Prod.snd) →
        e.canLift scale = true ∧
          (e.reinserted scale source).unfold = e.withoutMinusZeros.unfold ∧
          ((∀ entry ∈ e.liftable, entry.2 ≠ -0) →
            (e.reinserted scale source).unfold = e.unfold)) ∧
      (Random.isDrawable (-scale) scale = true → e.canLift scale = true) ∧
      ∀ options p q, (e.reinserted scale source).compile options = .ok p →
        (e.lift scale source).1.1.compile options = .ok q → ∀ x,
          p.evaluate x #[] = q.evaluate x (e.lift scale source).1.2.toArray := by
  have valid := (validate_eq_ok_iff e).mp accepted
  have lifted_valid : (e.parametrize e.liftedIds).Valid :=
    (validate_eq_ok_iff _).mp (valid.inherits_parametrize e.liftedIds).accepted
  have length_eq : (e.lift scale source).1.2.length = e.freeConstantCount :=
    (length_perturb ..).trans (List.length_map _)
  refine ⟨fun keeps => ?_, fun drawable => canLift_of_isDrawable drawable e,
    fun options p q inserted compiled x => ?_⟩
  · have values_eq : (e.lift scale source).1.2 = (e.liftable.map Prod.snd).map (· + 0) :=
      congrArg Prod.fst (keeps.perturb_eq _ source)
    have restored : (e.reinserted scale source).unfold = e.withoutMinusZeros.unfold := by
      have unfold_eq : (e.lift scale source).1.1.unfold = e.replaced.unfold :=
        e.unfold_parametrize e.liftedIds
      rw [reinserted, unfold_insertParams, values_eq, unfold_eq]
      exact valid.inserted_treeAt param_free countable .root
    exact ⟨keeps.canLift, restored,
      fun none_lifted => restored.trans (congrArg unfold (withoutMinusZeros_eq none_lifted))⟩
  · have count_eq := (valid.paramCount_parametrize param_free countable).trans length_eq.symm
    refine lifted_valid.evaluate_insertParams count_eq (fun i reaches => ?_) inserted compiled x
    rcases valid.param_of_parametrize lifted_valid reaches with reaches | ⟨k, k_lt, rfl⟩
    · exact absurd reaches (param_free i)
    · replace k_lt : k < e.freeConstantCount := by rwa [liftedIds, List.length_map] at k_lt
      rw [UInt64.toNat_ofNat_of_lt' (Nat.lt_trans k_lt countable), length_eq]
      exact k_lt

/-- The formula `x_0**2.0*2.0*-0.0` with the two shared. -/
def sharedExponent : Expr Float :=
  ⟨#[.var 0, .const 2, .binary .pow 0 1, .const (-0), .nary .mul [2, 1, 3]], 4⟩

theorem sharedExponent_restored :
    sharedExponent.validate = .ok () ∧ (∀ i, ¬sharedExponent.Reaches (.param i)) ∧
      sharedExponent.freeConstantCount = 2 ∧
      KeepsConstants 0 (sharedExponent.liftable.map Prod.snd) ∧
      (sharedExponent.reinserted 0 (ChaCha.Generator.ofSeed 0 0)).unfold =
        sharedExponent.withoutMinusZeros.unfold ∧
      ∃ p q,
        (sharedExponent.reinserted 1e-5 (ChaCha.Generator.ofSeed 0 0)).compile ⟨1, 5, 1⟩ = .ok p ∧
        (sharedExponent.lift 1e-5 (ChaCha.Generator.ofSeed 0 0)).1.1.compile ⟨1, 5, 1⟩ = .ok q ∧
        p.evaluate (Matrix.ofColumn [3]) #[] = q.evaluate (Matrix.ofColumn [3])
          (sharedExponent.lift 1e-5 (ChaCha.Generator.ofSeed 0 0)).1.2.toArray := by
  have accepted : sharedExponent.validate = .ok () := by decide +kernel
  have param_free : ∀ i, ¬sharedExponent.Reaches (.param i) := fun i reaches => by
    simpa [sharedExponent] using reaches.mem
  have count_eq : sharedExponent.freeConstantCount = 2 := by decide +kernel
  have countable : sharedExponent.freeConstantCount < 2 ^ 64 := by rw [count_eq]; decide
  have keeps : KeepsConstants 0 (sharedExponent.liftable.map Prod.snd) := .inl (by decide)
  have inserted : ((sharedExponent.reinserted 1e-5 (ChaCha.Generator.ofSeed 0 0)).compile
      ⟨1, 5, 1⟩).toOption.map Program.featureCount = some 1 := by decide +kernel
  have compiled : ((sharedExponent.lift 1e-5 (ChaCha.Generator.ofSeed 0 0)).1.1.compile
      ⟨1, 5, 1⟩).toOption.map Program.featureCount = some 1 := by decide +kernel
  obtain ⟨p, inserted, -⟩ := exists_of_map_toOption inserted
  obtain ⟨q, compiled, -⟩ := exists_of_map_toOption compiled
  have unmoved := lift_insert_restores sharedExponent accepted param_free countable 0
    (ChaCha.Generator.ofSeed 0 0)
  have moved := lift_insert_restores sharedExponent accepted param_free countable 1e-5
    (ChaCha.Generator.ofSeed 0 0)
  exact ⟨accepted, param_free, count_eq, keeps, (unmoved.1 keeps).2.1, p, q, inserted, compiled,
    moved.2.2 _ p q inserted compiled _⟩

end Expr
end FormulaFit
