import FormulaFit.Proofs.Arena.Occurrence
import FormulaFit.Proofs.Rewriting.Confinement

/-!
# The layout of an arena cannot be observed

The same tree is stored in many ways: nodes may be shared or repeated, come in any order with
children before their parents, and lie out of reach.  The queries walk the arena in different ways,
by index, along the preorder, or from the root down in a sweep.  Each of them is a function of the
tree of the root: the preorder lists its heads, and the program of a formula gives its values.
-/

namespace FormulaFit

variable {α : Type}

namespace Expr

variable {e a b : Expr α}

theorem Valid.preorderAt_heads (valid : e.Valid) {i : NodeId} (i_lt : i < e.nodes.size) :
    (e.preorderAt i).map (fun j => e.nodes[j]?.map Node.head) = (e.treeAt i).heads.map some := by
  induction i using Nat.strongRecOn with
  | ind i ih =>
      have found : e.nodes[i]? = some e.nodes[i] := Array.getElem?_eq_getElem i_lt
      have below : ∀ c ∈ e.nodes[i].children,
          (e.preorderAt c).map (fun j => e.nodes[j]?.map Node.head) =
            (e.treeAt c).heads.map some := fun c is_child =>
        have c_lt := valid.child_lt found c is_child
        ih c c_lt (Nat.lt_trans c_lt i_lt)
      rw [valid.treeAt_eq found, Tree.heads_mk, Node.head_map, Node.children_map,
        valid.preorderAt_eq found]
      simp only [List.map_cons, found, Option.map_some, List.map_flatMap, List.flatMap_map]
      rw [List.flatMap_congr below]

theorem Valid.length_preorder (valid : e.Valid) : e.preorder.length = e.unfold.heads.length := by
  simpa [preorder, unfold_eq_treeAt] using
    congrArg List.length (valid.preorderAt_heads valid.root_lt)

theorem Valid.map_head_reachable (valid : e.Valid) :
    e.reachable.map Node.head = e.unfold.heads := by
  have listed := congrArg (List.filterMap id) (valid.preorderAt_heads valid.root_lt)
  simpa [List.filterMap_map, Function.comp_def, reachable, preorder, unfold_eq_treeAt,
    List.map_filterMap] using listed

/-- What depends on a node only through its head is the same along both preorders. -/
theorem map_reachable_eq (valid : a.Valid) (valid' : b.Valid) (tree_eq : a.unfold = b.unfold)
    {γ : Type} {f : Node α NodeId → γ}
    (by_head : ∀ n : Node α NodeId, f n = f (n.head.map default)) :
    a.reachable.map f = b.reachable.map f := by
  have through (e : Expr α) :
      e.reachable.map f = (e.reachable.map Node.head).map fun h => f (h.map default) := by
    rw [List.map_map]
    exact List.map_congr_left fun n _ => by_head n
  rw [through a, through b, valid.map_head_reachable, valid'.map_head_reachable, tree_eq]

theorem filterMap_reachable_eq (valid : a.Valid) (valid' : b.Valid) (tree_eq : a.unfold = b.unfold)
    {γ : Type} {f : Node α NodeId → Option γ}
    (by_head : ∀ n : Node α NodeId, f n = f (n.head.map default)) :
    a.reachable.filterMap f = b.reachable.filterMap f := by
  have listed := congrArg (List.filterMap id) (map_reachable_eq valid valid' tree_eq by_head)
  rwa [List.filterMap_map, List.filterMap_map] at listed

theorem features_eq (valid : a.Valid) (valid' : b.Valid) (tree_eq : a.unfold = b.unfold) :
    a.features = b.features := by
  rw [features, features]
  refine congrArg (fun indices : List UInt64 =>
    (indices.mergeSort fun i j => decide (i ≤ j)).eraseReps)
    (filterMap_reachable_eq valid valid' tree_eq fun n => ?_)
  cases n <;> rfl

theorem constantCount_eq (valid : a.Valid) (valid' : b.Valid) (tree_eq : a.unfold = b.unfold) :
    a.constantCount = b.constantCount := by
  rw [constantCount, constantCount, List.countP_eq_length_filter, List.countP_eq_length_filter,
    ← List.filterMap_eq_filter]
  refine congrArg List.length (filterMap_reachable_eq valid valid' tree_eq fun n => ?_)
  cases n <;> rfl

theorem paramCount_eq_of_unfold_eq (valid : a.Valid) (valid' : b.Valid)
    (tree_eq : a.unfold = b.unfold) : a.paramCount = b.paramCount := by
  rw [paramCount_eq, paramCount_eq]
  refine congrArg (List.foldl Program.countIndex 0)
    (filterMap_reachable_eq valid valid' tree_eq fun n => ?_)
  cases n <;> rfl

theorem hasDegenerate_eq [Scalar α] (valid : a.Valid) (valid' : b.Valid)
    (tree_eq : a.unfold = b.unfold) : a.hasDegenerate = b.hasDegenerate := by
  have degenerate := congrArg (List.any · id) (map_reachable_eq valid valid' tree_eq
    (f := Node.isDegenerate) fun n => by cases n <;> rfl)
  simp only [List.any_map] at degenerate
  exact degenerate

theorem Valid.constant?_eq [Scalar α] (valid : e.Valid) : e.constant? = e.unfold.literal? := by
  obtain ⟨n, found⟩ : ∃ n, e.nodes[e.root]? = some n :=
    ⟨_, Array.getElem?_eq_getElem valid.root_lt⟩
  rw [constant?, rootNode?, found, unfold_eq_treeAt, valid.treeAt_eq found]
  cases n <;> rfl

end Expr

namespace Program

theorem foldl_countIndex_congr {indices indices' : List UInt64}
    (same : ∀ i, i ∈ indices ↔ i ∈ indices') :
    indices.foldl countIndex 0 = indices'.foldl countIndex 0 := by
  have le_of_le (bound : UInt64) :
      indices.foldl countIndex 0 ≤ bound ↔ indices'.foldl countIndex 0 ≤ bound := by
    simp only [foldl_countIndex_le_iff, same]
  exact UInt64.le_antisymm ((le_of_le _).mpr (UInt64.le_refl _))
    ((le_of_le _).mp (UInt64.le_refl _))

namespace Lowers

variable [Scalar α] {options : CompileOptions α} {e : Expr α} {p : Program α}

theorem paramCount_eq_toNat (lowers : Lowers options e p) (valid : e.Valid) :
    p.paramCount = e.paramCount.toNat := by
  rw [lowers.paramCount_eq, countParams_eq, e.paramCount_eq]
  refine congrArg UInt64.toNat (foldl_countIndex_congr fun i => ?_)
  simp only [List.mem_filterMap, valid.mem_reachable_iff]
  constructor
  · rintro ⟨instr, member, index_eq⟩
    obtain ⟨k, found⟩ := Array.getElem?_of_mem (Array.mem_toList_iff.mp member)
    cases instr with
    | param j =>
        obtain ⟨i', reaches, rfl⟩ := lowers.exists_reaches_param found
        rw [paramIndex?, UInt64.ofNat_toNat] at index_eq
        exact ⟨_, reaches, index_eq⟩
    | _ => cases index_eq
  · rintro ⟨n, ⟨index, reachable, at_index⟩, index_eq⟩
    cases n with
    | param j =>
        obtain ⟨instr, found, lowered⟩ := lowers.instr_at valid reachable at_index
        obtain rfl : Instr.param j.toNat = instr := Except.ok.inj lowered
        refine ⟨_, Array.mem_toList_iff.mpr (Array.mem_of_getElem? found), ?_⟩
        rw [paramIndex?, UInt64.ofNat_toNat]
        exact index_eq
    | _ => cases index_eq

/-- A run over a row stops at the coefficient that is not counted, if one is reachable. -/
theorem forward_eq_error (lowers : Lowers options e p) (valid : e.Valid)
    (uncounted : e.Reaches (.param uncountable)) {row params buffer : Array α}
    (wide : options.featureCount ≤ row.size) (supplied : params.size = p.paramCount)
    (size_eq : buffer.size = p.instrs.size) :
    p.forward row params buffer = .error (.indexOutside uncountable.toNat params.size) := by
  have missing : fetch params uncountable.toNat =
      .error (.indexOutside uncountable.toNat params.size) := by
    rw [fetch, Array.getElem?_eq_none (lowers.size_le_uncountable supplied)]
  have ends : (∃ slots, p.forward row params buffer = .ok slots) ∨
      ∃ e, e = .indexOutside uncountable.toNat params.size ∧
        p.forward row params buffer = .error e := by
    refine foldlM_exists_or (fun _ slots => slots.size = p.instrs.size) size_eq ?_
    rintro k ⟨instr, index⟩ slots at_k slots_size
    simp only [List.getElem?_zipIdx, Array.getElem?_toList, Option.map_eq_some_iff, Prod.mk.injEq,
      Nat.zero_add] at at_k
    obtain ⟨instr, found, rfl, rfl⟩ := at_k
    have k_lt : k < slots.size := slots_size ▸ (Array.getElem?_eq_some_iff.mp found).1
    by_cases countable : instr = .param uncountable.toNat
    · subst countable
      refine .inr ⟨_, rfl, ?_⟩
      simp only [Instr.value, missing]
      rfl
    · have fits := lowers.instr_fits valid wide supplied found countable
      exact .inl ⟨_, fits.put_value _ k_lt, Array.size_setIfInBounds.trans slots_size⟩
  obtain ⟨slots, finished⟩ | ⟨e, rfl, failed⟩ := ends
  · exact absurd finished (lowers.forward_ne_ok valid uncounted supplied row buffer slots)
  · exact failed

end Lowers

end Program

section Values

variable [Scalar α] {placeholder : α} {row params : Array α}

theorem Node.value?_eq_none {n : Node α (Option α)} (absent : none ∈ n.children) :
    n.value? placeholder row params = none := by
  cases n with
  | unary op a =>
      obtain rfl := (List.mem_singleton.mp absent)
      rfl
  | binary op a b =>
      simp only [children, List.mem_cons, List.not_mem_nil, or_false] at absent
      rcases absent with rfl | rfl
      · cases op <;> rfl
      · cases op <;> cases a <;> rfl
  | nary op args =>
      have none_left : args.mapM id = none := mapM_eq_none absent rfl
      rw [value?, none_left]
      rfl
  | relation | bounds | call => rfl
  | _ => cases absent

theorem Tree.value?_eq_none {t : Tree α} {i : UInt64} (member : .param i ∈ t.heads)
    (few : params.size ≤ i.toNat) : t.value? placeholder row params = none := by
  induction t using Tree.induction with
  | step n ih =>
      rw [heads_mk] at member
      rw [value?_mk]
      rcases List.mem_cons.mp member with same | below
      · cases n <;> cases same
        exact Array.getElem?_eq_none few
      · obtain ⟨u, is_child, below⟩ := List.mem_flatMap.mp below
        refine Node.value?_eq_none ?_
        rw [Node.children_map, List.mem_map]
        exact ⟨u, is_child, ih u is_child below⟩

theorem Tree.value?_congr {t : Tree α} {row' : Array α}
    (agree : ∀ i, .var i ∈ t.heads → row[i.toNat]? = row'[i.toNat]?) :
    t.value? placeholder row params = t.value? placeholder row' params := by
  induction t using Tree.induction with
  | step n ih =>
      rw [heads_mk] at agree
      have below : ∀ t ∈ n.children,
          t.value? placeholder row params = t.value? placeholder row' params := fun t is_child =>
        ih t is_child fun i member =>
          agree i (List.mem_cons_of_mem _ (List.mem_flatMap.mpr ⟨t, is_child, member⟩))
      rw [value?_mk, value?_mk, Node.map_congr below]
      cases n with
      | var i => exact agree i List.mem_cons_self
      | binary op a b => cases op <;> rfl
      | _ => rfl

end Values

/-- The value of a formula at a row, read off its tree.  Where there is none, the coefficient that
is not counted is missing. -/
def Tree.valueAt [Scalar α] (placeholder : α) (row params : Array α) (t : Tree α) :
    Except Error α :=
  match t.value? placeholder row params with
  | some v => .ok v
  | none => .error (.indexOutside Program.uncountable.toNat params.size)

theorem Tree.valueAt_congr [Scalar α] {placeholder : α} {row row' params : Array α} {t : Tree α}
    (agree : ∀ i, .var i ∈ t.heads → row[i.toNat]? = row'[i.toNat]?) :
    t.valueAt placeholder row params = t.valueAt placeholder row' params := by
  rw [valueAt, valueAt, value?_congr agree]

/-- The values of a formula at the rows of a table, read off its tree; the shapes are checked
first. -/
def Tree.evaluate [Scalar α] (options : CompileOptions α) (paramCount : Nat) (t : Tree α)
    (x : Matrix α) (params : Array α) : Except Error (List α) := do
  if params.size ≠ paramCount then throw (.data (.paramCount paramCount params.size))
  if x.cols < options.featureCount then throw (.data (.columnCount options.featureCount x.cols))
  x.rowList.mapM (t.valueAt options.divisionPlaceholder · params)

namespace Program.Lowers

variable [Scalar α] {options : CompileOptions α} {e : Expr α} {p : Program α}

theorem evaluateRows_eq_tree (lowers : Lowers options e p) (valid : e.Valid)
    {params : Array α} (supplied : params.size = p.paramCount) {rows : List (Array α)}
    (wide : ∀ row ∈ rows, options.featureCount ≤ row.size) :
    p.evaluateRows params p.freshSlots rows =
      rows.mapM (e.unfold.valueAt options.divisionPlaceholder · params) := by
  have fresh : p.freshSlots.size = p.instrs.size := by simp [freshSlots]
  by_cases uncounted : e.Reaches (.param uncountable)
  · cases rows with
    | nil => rfl
    | cons row rows =>
        have stops := lowers.forward_eq_error valid uncounted (wide row List.mem_cons_self)
          supplied fresh
        rw [evaluateRows, stops, List.mapM_cons, Tree.valueAt,
          Tree.value?_eq_none (uncounted.head_mem_heads valid.ordered)
            (lowers.size_le_uncountable supplied)]
        rfl
  · have fits (row : Array α) (member : row ∈ rows) : p.Fits row params :=
      lowers.fits valid uncounted (wide row member) supplied
    rw [evaluateRows_eq fits fresh lowers.nonempty]
    refine (mapM_eq_ok fun row member => ?_).symm
    rw [Tree.valueAt, lowers.value?_unfold valid (fits row member)]

/-- Evaluation of a program is that of the tree of its formula. -/
theorem evaluate_eq_tree (lowers : Lowers options e p) (valid : e.Valid) (x : Matrix α)
    (params : Array α) :
    p.evaluate x params = e.unfold.evaluate options e.paramCount.toNat x params := by
  rw [evaluate, checkInputs, Tree.evaluate, ← lowers.paramCount_eq_toNat valid,
    ← lowers.featureCount_eq]
  by_cases supplied : params.size = p.paramCount
  · by_cases wide : p.featureCount ≤ x.cols
    · have wide_rows : ∀ row ∈ x.rowList, options.featureCount ≤ row.size := fun row member =>
        x.size_of_mem_rowList member ▸ lowers.featureCount_eq ▸ wide
      rw [if_neg (not_not.mpr supplied), if_neg (Nat.not_lt.mpr wide),
        ← lowers.evaluateRows_eq_tree valid supplied wide_rows,
        if_neg (not_not.mpr supplied), if_neg (Nat.not_lt.mpr wide)]
      rfl
    · rw [if_neg (not_not.mpr supplied), if_neg (not_not.mpr supplied),
        if_pos (Nat.not_le.mp wide), if_pos (Nat.not_le.mp wide)]
      rfl
  · rw [if_pos supplied, if_pos supplied]
    rfl

end Program.Lowers

namespace Expr

theorem Valid.forall_reaches_iff {e : Expr α} (valid : e.Valid) {P : Node α Unit → Prop} :
    (∀ n, e.Reaches n → P n.head) ↔ ∀ h ∈ e.unfold.heads, P h := by
  constructor
  · intro each h member
    obtain ⟨n, reaches, rfl⟩ := valid.exists_reaches_of_mem_heads member
    exact each n reaches
  · exact fun each n reaches => each _ (reaches.head_mem_heads valid.ordered)

theorem exists_compile?_congr [Scalar α] {a b : Expr α} (valid : a.Valid) (valid' : b.Valid)
    (tree_eq : a.unfold = b.unfold) (options : CompileOptions α) :
    (∃ p, Program.compile? options a = .ok p) ↔ ∃ p, Program.compile? options b = .ok p := by
  by_cases expired : options.timeoutMs = 0
  · simp [Program.compile?_eq_ok_iff, expired]
  · have native_iff {e : Expr α} (valid : e.Valid) : (∃ p, Program.compile? options e = .ok p) ↔
        ∀ h ∈ e.unfold.heads, h.isForeign options.featureCount = false := by
      rw [Program.exists_compile?_iff valid expired, ← valid.forall_reaches_iff]
      simp only [Node.isForeign_head]
    rw [native_iff valid, native_iff valid', tree_eq]

/-- No query and no transformation tells two stored formulas apart. -/
structure Indistinguishable (a b : Expr Float) : Prop where
  depth_eq : a.depth = b.depth
  length_preorder_eq : a.preorder.length = b.preorder.length
  features_eq : a.features = b.features
  constantCount_eq : a.constantCount = b.constantCount
  paramCount_eq : a.paramCount = b.paramCount
  hasDegenerate_eq : a.hasDegenerate = b.hasDegenerate
  constant?_eq : a.constant? = b.constant?
  display_eq : a.display = b.display
  compact_eq : a.compact = b.compact
  simplify_eq : ∀ deadline, a.simplify deadline = b.simplify deadline
  sanitize_eq : ∀ policy, a.sanitize policy = b.sanitize policy
  compiles_iff : ∀ options, (∃ p, a.compile options = .ok p) ↔ ∃ q, b.compile options = .ok q
  evaluate_eq : ∀ options p q, a.compile options = .ok p → b.compile options = .ok q →
    ∀ x params, p.evaluate x params = q.evaluate x params

theorem Valid.indistinguishable {a b : Expr Float} (valid : a.Valid) (valid' : b.Valid)
    (tree_eq : a.unfold = b.unfold) : a.Indistinguishable b where
  depth_eq := by
    rw [Expr.depth_eq valid.ordered valid.root_lt, Expr.depth_eq valid'.ordered valid'.root_lt,
      tree_eq]
  length_preorder_eq := by rw [valid.length_preorder, valid'.length_preorder, tree_eq]
  features_eq := Expr.features_eq valid valid' tree_eq
  constantCount_eq := Expr.constantCount_eq valid valid' tree_eq
  paramCount_eq := paramCount_eq_of_unfold_eq valid valid' tree_eq
  hasDegenerate_eq := Expr.hasDegenerate_eq valid valid' tree_eq
  constant?_eq := by rw [valid.constant?_eq, valid'.constant?_eq, tree_eq]
  display_eq := by rw [a.display_eq, b.display_eq, tree_eq]
  compact_eq := by rw [a.compact_eq, b.compact_eq, tree_eq]
  simplify_eq deadline := by rw [a.simplify_eq, b.simplify_eq, tree_eq]
  sanitize_eq policy := by
    rw [a.sanitize_eq, b.sanitize_eq, (validate_eq_ok_iff a).mpr valid,
      (validate_eq_ok_iff b).mpr valid', paramCount_eq_of_unfold_eq valid valid' tree_eq,
      a.display_eq, b.display_eq, tree_eq]
  compiles_iff options := by
    simpa only [compile_eq_ok_iff] using exists_compile?_congr valid valid' tree_eq options
  evaluate_eq options p q compiled compiled' x params := by
    have lowers := Program.lowers_of_compile? (compile_eq_ok_iff.mp compiled)
    have lowers' := Program.lowers_of_compile? (compile_eq_ok_iff.mp compiled')
    rw [lowers.evaluate_eq_tree valid, lowers'.evaluate_eq_tree valid', tree_eq,
      paramCount_eq_of_unfold_eq valid valid' tree_eq]

/-- The layout of arenas cannot be observed: valid formulas are the same exactly if they stand for
the same tree, which is an equivalence, and then nothing tells them apart. -/
theorem layout_unobservable :
    Equivalence (fun a b : {e : Expr Float // e.validate = .ok ()} => a.val.same b.val = true) ∧
      ∀ a b : Expr Float, a.validate = .ok () → b.validate = .ok () →
        (a.same b = true ↔ a.unfold = b.unfold) ∧
          (a.same b = true → a.Indistinguishable b) := by
  have same_iff_of_valid {a b : Expr Float} (accepted : a.validate = .ok ())
      (accepted' : b.validate = .ok ()) : a.same b = true ↔ a.unfold = b.unfold := by
    have valid := (validate_eq_ok_iff a).mp accepted
    have valid' := (validate_eq_ok_iff b).mp accepted'
    exact same_iff valid.ordered valid'.ordered valid.root_lt valid'.root_lt
  refine ⟨⟨fun a => ?_, fun {a b} same => ?_, fun {a b c} same same' => ?_⟩,
    fun a b accepted accepted' => ⟨same_iff_of_valid accepted accepted', fun same => ?_⟩⟩
  · exact (same_iff_of_valid a.property a.property).mpr rfl
  · rw [same_iff_of_valid a.property b.property] at same
    exact (same_iff_of_valid b.property a.property).mpr same.symm
  · rw [same_iff_of_valid a.property b.property] at same
    rw [same_iff_of_valid b.property c.property] at same'
    exact (same_iff_of_valid a.property c.property).mpr (same.trans same')
  · exact ((validate_eq_ok_iff a).mp accepted).indistinguishable
      ((validate_eq_ok_iff b).mp accepted') ((same_iff_of_valid accepted accepted').mp same)

/-- The sum `2*x_0 + 2*x_0` with a shared product. -/
def sharedProduct : Expr Float :=
  ⟨#[.var 0, .const 2, .nary .mul [1, 0], .nary .add [2, 2]], 3⟩

/-- The sum `2*x_0 + 2*x_0` with two products, in another order and among other nodes. -/
def repeatedProduct : Expr Float :=
  ⟨#[.symbol .nan, .const 2, .var 0, .nary .mul [1, 2], .var 0, .nary .mul [1, 4],
    .nary .add [5, 3], .param 3], 6⟩

theorem sharedProduct_indistinguishable :
    sharedProduct.validate = .ok () ∧ repeatedProduct.validate = .ok () ∧
      sharedProduct.same repeatedProduct = true ∧
      sharedProduct.Indistinguishable repeatedProduct := by
  have accepted : sharedProduct.validate = .ok () := by decide +kernel
  have accepted' : repeatedProduct.validate = .ok () := by decide +kernel
  obtain ⟨same_iff, unobservable⟩ :=
    layout_unobservable.2 sharedProduct repeatedProduct accepted accepted'
  have same := same_iff.mpr rfl
  exact ⟨accepted, accepted', same, unobservable same⟩

end Expr

end FormulaFit
