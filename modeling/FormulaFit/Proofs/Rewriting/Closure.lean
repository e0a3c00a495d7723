import FormulaFit.Proofs.Arena.Compactness
import FormulaFit.Proofs.Optimize.Parametrization
import FormulaFit.Proofs.Rewriting.Repair
import FormulaFit.Proofs.Scalar.Words
import FormulaFit.Random.ChaCha

/-!
# Transformations keep formulas valid

Compaction, replacement, simplification, lifting and insertion all give a formula whose tree is
within the levels of the given one and names nothing that is not in it, apart from new coefficients.
So what they give is valid, and the walks leave it compact.  Simplification also turns every
overflow, undefined value and infinite literal into a symbol, so that it leaves finite literals
only.
-/

namespace FormulaFit

variable {α : Type} {names : List (Node α Unit)}

theorem Node.IsProper.append {β : Type} {n : Node α β} (proper : n.IsProper names)
    (more : List (Node α Unit)) : n.IsProper (names ++ more) := by
  cases n with
  | var i | param i | call name args => exact List.mem_append_left _ proper
  | _ => exact proper

theorem Tree.isFinite_of_isUsual {v : Float} (usual : IsUsual v) : v.isFinite = true := by
  cases usual with
  | finite finite => exact finite
  | regular regular => exact Double.ofNonFinite?_eq_none_iff.mp regular
  | zero | one | minusOne => decide +kernel

namespace Tree

/-- Every literal of the tree is finite. -/
abbrev Finite : Tree Float → Prop := All fun n => ∀ v, n = .const v → v.isFinite = true

variable {names : List (Node Float Unit)} {levels : Nat} {t : Tree Float}

theorem Finite.of_mem_heads (finite : t.Finite) {v : Float} (member : .const v ∈ t.heads) :
    v.isFinite = true := by
  induction finite with
  | @mk n here _ ih =>
      rw [heads_mk] at member
      rcases List.mem_cons.mp member with same | below
      · cases n <;> cases same
        exact here v rfl
      · obtain ⟨u, is_child, below⟩ := List.mem_flatMap.mp below
        exact ih u is_child below

theorem Finite.ruleClosed :
    RuleClosed names fun levels t => t.Within names levels ∧ t.Finite where
  literal {levels v} usual := by
    refine ⟨.const v, .mk (n := .const v) (fun w same => ?_) ?_⟩
    · exact Node.const.inj same ▸ isFinite_of_isUsual usual
    · simp [Node.children]
  node proper other each :=
    ⟨.mk proper fun t is_child => (each t is_child).1,
      .mk (fun v same => absurd same (other v)) fun t is_child => (each t is_child).2⟩
  succ kept := ⟨kept.1.mono (Nat.le_succ _), kept.2⟩
  of_child kept is_child := ⟨kept.1.of_child is_child, kept.2.of_child is_child⟩
  operands_ne_nil kept := Within.ruleClosed.operands_ne_nil kept.1
  exists_eq_succ kept := Within.ruleClosed.exists_eq_succ kept.1

/-- The literals of a simplified formula are finite, whatever those of the formula are. -/
theorem finite_simplify (within : t.Within names levels) : t.simplify.Finite :=
  (Finite.ruleClosed.simplify within).2

end Tree

namespace Expr

variable {e : Expr α}

/-- A formula made of another one: it is valid and compact, is not nested more deeply, and has no
other features and functions. -/
structure Inherits (e r : Expr α) : Prop where
  accepted : r.validate = .ok ()
  depth_le : r.depth ≤ e.depth
  var_occurs : ∀ i, .var i ∈ r.nodes.toList → e.Reaches (.var i)
  call_occurs : ∀ name args, .call name args ∈ r.nodes.toList →
    ∃ args', e.Reaches (.call name args')
  isCompact : r.IsCompact

/-- The stored form of a tree within the levels of a valid formula is made of the formula if it is
compact and all its names but those of coefficients occur in the formula. -/
theorem Valid.inherits (valid : e.Valid) {r : Expr α} {t : Tree α} (stored : r = t.store)
    (isCompact : r.IsCompact) (within : t.Within names e.depth)
    (occurs : ∀ h ∈ names, h ∈ e.unfold.heads ∨ ∃ i, h = .param i) : e.Inherits r := by
  subst stored
  have proper {n : Node α NodeId} (member : n ∈ t.store.nodes.toList) : n.IsProper names := by
    obtain ⟨i, found⟩ := Array.getElem?_of_mem (Array.mem_toList_iff.mp member)
    exact within.proper_store i n found
  have reached {h : Node α Unit} (named : h ∈ names) (old : ∀ i, h ≠ .param i) :
      ∃ n, e.Reaches n ∧ n.head = h := by
    obtain named | ⟨i, added⟩ := occurs h named
    · exact valid.exists_reaches_of_mem_heads named
    · exact absurd added (old i)
  refine ⟨(validate_eq_ok_iff _).mpr (within.valid_store valid.depth_le), ?_, fun i member => ?_,
    fun name args member => ?_, isCompact⟩
  · rw [depth_eq t.ordered_store t.root_store_lt, Tree.unfold_store]
    exact within.depth_le
  · obtain ⟨n, reaches, head_eq⟩ := reached (proper member) fun _ same => nomatch same
    cases n <;> cases head_eq
    exact reaches
  · obtain ⟨n, reaches, head_eq⟩ := reached (proper member) fun _ same => nomatch same
    cases n <;> cases head_eq
    exact ⟨_, reaches⟩

/-- The heads of new coefficients. -/
def coefficients (count : Nat) : List (Node α Unit) :=
  (List.range count).map fun k => .param (UInt64.ofNat k)

theorem Valid.parametrized_within (valid : e.Valid) (ids : List NodeId) :
    (unfold ⟨e.parametrized ids, e.root⟩).Within (e.unfold.heads ++ coefficients ids.length)
      e.depth := by
  refine valid.within_of_children (valid.ordered_parametrized ids) rfl
    fun i n reachable found => ?_
  have i_lt : i < (e.parametrized ids).size :=
    e.size_parametrized ids ▸ (Array.getElem?_eq_some_iff.mp found).1
  have found' := Array.getElem?_eq_getElem i_lt
  refine ⟨_, found', ?_⟩
  obtain kept | ⟨k, k_lt, made⟩ := (e.getElem?_parametrized ids i).2 _ found'
  · obtain rfl := Option.some.inj (found.symm.trans kept)
    exact ⟨(valid.isProper ⟨i, reachable, found⟩).append _, fun c is_child => is_child⟩
  · rw [made]
    have named : .param (UInt64.ofNat k) ∈ (coefficients ids.length : List (Node α Unit)) :=
      List.mem_map_of_mem (List.mem_range.mpr k_lt)
    exact ⟨List.mem_append_right _ named, fun c is_child => nomatch is_child⟩

theorem Valid.inserted_within (valid : e.Valid) (params : List α) :
    (e.unfold.inserted params).Within e.unfold.heads e.depth := by
  have within := valid.unfold_within
  generalize e.unfold.heads = names at within ⊢
  generalize e.unfold = t at within ⊢
  generalize e.depth = levels at within ⊢
  induction within with
  | @mk levels n proper below ih =>
      rw [Tree.inserted, Tree.fold_mk]
      cases n with
      | param i =>
          simp only [Node.map]
          split
          · exact .const _
          · exact .mk proper below
      | _ =>
          exact .mk ((Node.isProper_map _ _ _).mpr proper) (Node.forall_children_map.mpr ih)

/-- A node that is numbered as a coefficient loses its children, and none of theirs is appended. -/
theorem isCompact_parametrize (e : Expr α) (ids : List NodeId) :
    (e.parametrize ids).IsCompact := by
  refine (plants_foldAt (plants_push rfl) (fun i n each => ?_) e e.root).isCompact
  split
  · exact plants_push rfl
  · exact plants_node each

theorem isCompact_insertParams (params : List α) (e : Expr α) :
    (e.insertParams params).IsCompact := by
  refine isCompact_rebuild (fun n each => ?_) e
  cases n with
  | param i =>
      simp only [Node.mapM, pure_bind, insertParam]
      split <;> exact plants_push rfl
  | _ => exact plants_node each

/-- Coefficients in the place of nodes are all that a formula with lifted constants has beyond the
formula. -/
theorem Valid.inherits_parametrize (valid : e.Valid) (ids : List NodeId) :
    e.Inherits (e.parametrize ids) := by
  refine valid.inherits (e.parametrize_eq ids) (isCompact_parametrize e ids)
    (valid.parametrized_within ids) fun h named => ?_
  refine (List.mem_append.mp named).imp_right fun added => ?_
  obtain ⟨k, -, rfl⟩ := List.mem_map.mp added
  exact ⟨_, rfl⟩

theorem Valid.inherits_insertParams (valid : e.Valid) (params : List α) :
    e.Inherits (e.insertParams params) :=
  valid.inherits (insertParams_eq params e) (isCompact_insertParams params e)
    (valid.inserted_within params) fun _ named => .inl named

theorem Valid.inherits_compact (valid : e.Valid) {r : Expr α} {t : Tree α}
    (stored : r.compact = t.store) (within : t.Within e.unfold.heads e.depth) :
    e.Inherits r.compact :=
  valid.inherits stored r.isCompact_compact within fun _ named => .inl named

theorem exists_eq_compact_of_simplify [Scalar α] {deadline : Deadline} {s : Expr α}
    (simplified : e.simplify deadline = .ok s) : ∃ r : Expr α, s = r.compact := by
  obtain ⟨r, -, compacted⟩ := bind_eq_ok_iff.mp simplified
  exact ⟨r, (Except.ok.inj compacted).symm⟩

/-- Every transformation of a valid formula gives a valid and compact one that is nested no more
deeply and has no other features and functions, and simplification leaves no literal that is not
finite.  Lifting gives one exactly if its offsets can be drawn. -/
theorem transformed_inherits {e : Expr Float} (accepted : e.validate = .ok ()) :
    e.Inherits e.compact ∧
      (∀ placeholder, e.Inherits (e.substitute placeholder).1) ∧
      (∀ deadline : Deadline, deadline.expired = false →
        ∃ s, e.simplify deadline = .ok s ∧ e.Inherits s ∧
          ∀ v, s.Reaches (.const v) → v.isFinite = true) ∧
      (∀ (σ : Type) [WordSource σ] (scale : Float) (source : σ),
        ((∃ result, e.lift? scale source = some result) ↔ e.canLift scale = true) ∧
          ∀ result, e.lift? scale source = some result → e.Inherits result.1.1) ∧
      ∀ params, e.Inherits (e.insertParams params) := by
  have valid := (validate_eq_ok_iff e).mp accepted
  have within := valid.unfold_within
  refine ⟨valid.inherits_compact e.compact_eq within, fun placeholder => ?_,
    fun deadline unexpired => ?_, fun σ _ scale source => ⟨?_, fun result lifted => ?_⟩,
    valid.inherits_insertParams⟩
  · have stored := congrArg Prod.fst (substitute_eq placeholder e)
    exact valid.inherits_compact stored (Tree.substitute_within placeholder within)
  · have simplified : e.simplify deadline = .ok e.unfold.simplify.store := simplify_eq_ok unexpired
    obtain ⟨r, compacted⟩ := exists_eq_compact_of_simplify simplified
    have inherits := valid.inherits_compact compacted.symm (Tree.simplify_within within)
    refine ⟨_, simplified, compacted ▸ inherits, fun v reaches => ?_⟩
    have named := reaches.head_mem_heads (Tree.ordered_store _)
    rw [Tree.unfold_store] at named
    exact (Tree.finite_simplify within).of_mem_heads named
  · simp only [lift?_eq_some_iff, exists_and_left, exists_eq', and_true]
  · obtain ⟨-, rfl⟩ := lift?_eq_some_iff.mp lifted
    exact valid.inherits_parametrize (e.liftable.map Prod.fst)

/-- The formula `f(x_0*2/0) - C_1*(x_0*2)` with a shared product, and an overflowed literal out of
reach. -/
def sharedFactor : Expr Float :=
  ⟨#[.const 2, .var 0, .const (1 / 0), .nary .mul [1, 0], .const 0, .binary .div 3 4,
    .call "f" [5], .param 1, .nary .mul [7, 3], .binary .sub 6 8], 9⟩

theorem sharedFactor_transformed :
    sharedFactor.validate = .ok () ∧ sharedFactor.Inherits sharedFactor.compact ∧
      sharedFactor.Inherits (sharedFactor.substitute 1).1 ∧
      (∃ s, sharedFactor.simplify ⟨.simplify, 5000⟩ = .ok s ∧ sharedFactor.Inherits s ∧
        ∀ v, s.Reaches (.const v) → v.isFinite = true) ∧
      (∃ result, sharedFactor.lift? 0.5 (ChaCha.Generator.ofSeed 7 0) = some result ∧
        sharedFactor.Inherits result.1.1) ∧
      sharedFactor.Inherits (sharedFactor.insertParams [3]) := by
  have accepted : sharedFactor.validate = .ok () := by decide +kernel
  obtain ⟨compacted, substituted, simplified, lifted, inserted⟩ := transformed_inherits accepted
  obtain ⟨exists_iff, inherits⟩ := lifted _ 0.5 (ChaCha.Generator.ofSeed 7 0)
  obtain ⟨result, found⟩ := exists_iff.mpr (by decide +kernel)
  exact ⟨accepted, compacted, substituted 1, simplified ⟨.simplify, 5000⟩ rfl,
    ⟨result, found, inherits result found⟩, inserted [3]⟩

/-- The formula `2*x_0 + 2`. -/
def repeatedTwo : Expr Float :=
  ⟨#[.const 2, .var 0, .nary .mul [0, 1], .const 2, .nary .add [2, 3]], 4⟩

/-- Half of the greatest finite double, whose double is finite. -/
def halfGreatest : Float := Float.ofBits 0x7fdfffffffffffff

/-- An interval as wide as the greatest finite double is too wide to draw an offset from. -/
theorem repeatedTwo_not_lifted :
    repeatedTwo.validate = .ok () ∧ (2 * halfGreatest).isFinite = true ∧
      repeatedTwo.lift? halfGreatest (ChaCha.Generator.ofSeed 0 0) = none := by
  have cannot : repeatedTwo.canLift halfGreatest = false := by decide +kernel
  refine ⟨by decide +kernel, by decide +kernel, ?_⟩
  rw [lift?_eq, cannot]
  rfl

end Expr

end FormulaFit
