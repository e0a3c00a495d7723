import FormulaFit.Proofs.Rewriting.Sanitization

/-!
# Simplification and replacement stay within the formula

A tree is within some names and levels if all features, coefficients and functions in it are among
the names, no operator lacks operands, and it is not nested deeper than the levels.  Simplification
and replacement keep every tree within its own names and levels, also where they bring in symbols,
bounds and literals.  The rules of simplification keep every property that passes between nodes and
their children, this one among them.
-/

namespace FormulaFit

variable {α : Type}

namespace Node

variable {β γ : Type}

/-- The node is a feature, coefficient or function among the names, or an operator with operands, or
none of these. -/
def IsProper (names : List (Node α Unit)) : Node α β → Prop
  | var i => .var i ∈ names
  | param i => .param i ∈ names
  | call name _ => .call name [] ∈ names
  | nary _ args => args ≠ []
  | _ => True

theorem isProper_map (names : List (Node α Unit)) (f : β → γ) (n : Node α β) :
    (n.map f).IsProper names ↔ n.IsProper names := by
  cases n <;> simp [map, IsProper]

end Node

namespace Tree

/-- Every node of the tree is proper, and there are at most so many levels. -/
inductive Within (names : List (Node α Unit)) : (levels : Nat) → Tree α → Prop where
  | mk {levels : Nat} {n : Node α (Tree α)} (proper : n.IsProper names)
      (below : ∀ t ∈ n.children, Within names levels t) : Within names (levels + 1) (mk n)

namespace Within

variable {names : List (Node α Unit)} {levels : Nat}

theorem mono {t : Tree α} (within : t.Within names levels) {more : Nat}
    (levels_le : levels ≤ more) :
    t.Within names more := by
  induction within generalizing more with
  | mk proper _ ih =>
      cases more with
      | zero => exact absurd levels_le (Nat.not_succ_le_zero _)
      | succ more =>
          exact .mk proper fun t member => ih t member (Nat.le_of_succ_le_succ levels_le)

theorem of_child {t : Tree α} {n : Node α (Tree α)} (within : (Tree.mk n).Within names levels)
    (is_child : t ∈ n.children) : t.Within names levels := by
  cases within with
  | mk _ below => exact (below t is_child).mono (Nat.le_succ _)

theorem const (v : α) : (Tree.const v).Within names (levels + 1) :=
  .mk (n := .const v) trivial (by simp [Node.children])

end Within

section Rules

variable [Scalar α] {names : List (Node α Unit)}

/-- A literal that simplification may write. -/
inductive IsUsual : α → Prop where
  | finite {v : α} (finite : Scalar.isFinite v = true) : IsUsual v
  | regular {v : α} (regular : Symbol.ofNonFinite? v = none) : IsUsual v
  | zero : IsUsual 0
  | one : IsUsual 1
  | minusOne : IsUsual (-1)

/-- A property of trees of so many levels that passes from the operands of a node to the node, if
that is not a literal, and to all parts of a tree, and that every literal has which simplification
may write. -/
structure RuleClosed (names : List (Node α Unit)) (P : Nat → Tree α → Prop) : Prop where
  literal : ∀ {levels : Nat} {v : α}, IsUsual v → P (levels + 1) (const v)
  node : ∀ {levels : Nat} {n : Node α (Tree α)}, n.IsProper names → (∀ v, n ≠ .const v) →
    (∀ t ∈ n.children, P levels t) → P (levels + 1) (mk n)
  succ : ∀ {levels : Nat} {t : Tree α}, P levels t → P (levels + 1) t
  of_child : ∀ {levels : Nat} {n : Node α (Tree α)} {t : Tree α}, P levels (mk n) →
    t ∈ n.children → P levels t
  operands_ne_nil : ∀ {levels : Nat} {op : NaryOp} {args : List (Tree α)},
    P levels (mk (.nary op args)) → args ≠ []
  exists_eq_succ : ∀ {levels : Nat} {t : Tree α}, P levels t → ∃ fewer, levels = fewer + 1

namespace RuleClosed

variable {P : Nat → Tree α → Prop} {levels : Nat} {a b : Tree α}

theorem symbol (closed : RuleClosed names P) (s : Symbol) : P (levels + 1) (ofSymbol s) :=
  closed.node (n := .symbol s) trivial (by simp) (by simp [Node.children])

theorem number (closed : RuleClosed names P) (v : α) : P (levels + 1) (.number v) := by
  unfold Tree.number
  split
  · exact closed.symbol _
  · rename_i regular
    exact closed.literal (.regular regular)

theorem oscillation (closed : RuleClosed names P) : P (levels + 2) .oscillation := by
  refine closed.node trivial (by simp) ?_
  simpa [Node.children] using ⟨closed.literal .minusOne, closed.literal .one⟩

theorem binary (closed : RuleClosed names P) (op : BinaryOp) (left : P levels a)
    (right : P levels b) : P (levels + 1) (.mk (.binary op a b)) :=
  closed.node trivial (by simp) (by simpa [Node.children] using ⟨left, right⟩)

theorem unaryOfSymbol? (closed : RuleClosed names P) {op : UnaryOp} {s : Symbol} {t : Tree α}
    (value : Tree.unaryOfSymbol? op s = some t) : P (levels + 2) t := by
  unfold Tree.unaryOfSymbol? at value
  split at value <;> cases value
  all_goals first
    | exact closed.symbol _
    | exact closed.oscillation
    | exact closed.literal .zero

theorem simplifyUnary (closed : RuleClosed names P) (op : UnaryOp) (below : P levels a) :
    P (levels + 1) (.simplifyUnary op a) := by
  unfold Tree.simplifyUnary
  split
  · unfold foldUnary
    dsimp only
    split
    · exact closed.symbol _
    · exact closed.number _
  · split
    · exact closed.succ (closed.of_child below (by simp [Node.children]))
    · cases value : a.symbol?.bind fun s => (Tree.unaryOfSymbol? op s : Option (Tree α)) with
      | none => exact closed.node trivial (by simp) (by simpa [Node.children] using below)
      | some t =>
          obtain ⟨s, -, value⟩ := Option.bind_eq_some_iff.mp value
          obtain ⟨levels, rfl⟩ := closed.exists_eq_succ below
          exact closed.unaryOfSymbol? value

theorem foldBinary (closed : RuleClosed names P) (op : BinaryOp) (x y : α) :
    P (levels + 1) (.foldBinary op x y) := by
  unfold Tree.foldBinary
  split
  · exact closed.number _
  · split
    · exact closed.symbol _
    · exact closed.number _
  · split
    · exact closed.symbol _
    · split
      · exact closed.symbol _
      · exact closed.number _

theorem simplifySub (closed : RuleClosed names P) (left : P levels a) (right : P levels b) :
    P (levels + 1) (.simplifySub a b) := by
  unfold Tree.simplifySub
  split
  · exact closed.succ left
  · split
    · exact closed.simplifyUnary .neg right
    · split
      · exact closed.symbol _
      · split
        · exact closed.symbol _
        · split
          · exact closed.literal .zero
          · exact closed.binary .sub left right

theorem simplifyDiv (closed : RuleClosed names P) (left : P levels a) (right : P levels b) :
    P (levels + 1) (.simplifyDiv a b) := by
  unfold Tree.simplifyDiv
  split
  · exact closed.succ left
  · split
    · obtain ⟨levels, rfl⟩ := closed.exists_eq_succ left
      refine closed.node (List.cons_ne_nil _ _) (by simp) ?_
      simpa [Node.children] using ⟨closed.symbol _, left⟩
    · split
      · exact closed.literal .zero
      · split
        · exact closed.literal .one
        · exact closed.binary .div left right

theorem simplifyPow (closed : RuleClosed names P) (left : P levels a) (right : P levels b) :
    P (levels + 1) (.simplifyPow a b) := by
  unfold Tree.simplifyPow
  split
  · exact closed.succ left
  · split
    · exact closed.literal .one
    · exact closed.binary .pow left right

theorem simplifyBinary (closed : RuleClosed names P) (op : BinaryOp) (left : P levels a)
    (right : P levels b) : P (levels + 1) (.simplifyBinary op a b) := by
  unfold Tree.simplifyBinary
  split
  · exact closed.symbol _
  · split
    · exact closed.foldBinary op _ _
    · cases op with
      | sub => exact closed.simplifySub left right
      | div => exact closed.simplifyDiv left right
      | pow => exact closed.simplifyPow left right

theorem flatten (closed : RuleClosed names P) {op : NaryOp} {args : List (Tree α)}
    (each : ∀ t ∈ args, P levels t) : ∀ t ∈ Tree.flatten op args, P levels t := by
  intro t member
  obtain ⟨u, is_arg, member⟩ := List.mem_flatMap.mp member
  split at member
  · split at member
    · exact closed.of_child (each _ is_arg) member
    · obtain rfl := List.mem_singleton.mp member
      exact each _ is_arg
  · obtain rfl := List.mem_singleton.mp member
    exact each _ is_arg

theorem flatten_ne_nil (closed : RuleClosed names P) {op : NaryOp} {args : List (Tree α)}
    (nonempty : args ≠ []) (each : ∀ t ∈ args, P levels t) : Tree.flatten op args ≠ [] := by
  obtain ⟨t, is_arg⟩ := List.exists_mem_of_ne_nil args nonempty
  intro empty
  have none_left := List.flatMap_eq_nil_iff.mp empty t is_arg
  split at none_left
  · split at none_left
    · exact closed.operands_ne_nil (each _ is_arg) none_left
    · cases none_left
  · cases none_left

theorem gather (closed : RuleClosed names P) {op : NaryOp} {operands : List (Tree α)}
    (nonempty : operands ≠ []) (each : ∀ t ∈ operands, P levels t) :
    P (levels + 1) (.gather op operands) := by
  match operands, nonempty with
  | [t], _ => exact closed.succ (each t List.mem_cons_self)
  | t :: u :: rest, nonempty => exact closed.node nonempty (by simp) each

theorem combine (closed : RuleClosed names P) {op : NaryOp} {operands : List (Tree α)}
    (nonempty : operands ≠ []) (each : ∀ t ∈ operands, P levels t) :
    P (levels + 1) (.combine op operands) := by
  obtain ⟨t, member⟩ := List.exists_mem_of_ne_nil operands nonempty
  obtain ⟨levels, rfl⟩ := closed.exists_eq_succ (each t member)
  have rest : ∀ t ∈ operands.filter fun t => t.literal?.isNone, P (levels + 1) t :=
    fun t member => each t (List.mem_filter.mp member).1
  unfold Tree.combine
  dsimp only
  split
  · rename_i no_literals
    rw [List.isEmpty_iff, List.filterMap_eq_nil_iff] at no_literals
    refine closed.gather (List.ne_nil_of_mem (List.mem_filter.mpr ⟨member, ?_⟩)) rest
    rw [no_literals t member]
    rfl
  · split
    · split
      · exact closed.symbol _
      · exact closed.literal .zero
    · split
      · rename_i others
        rw [Bool.and_eq_true, Bool.not_eq_true', List.isEmpty_eq_false_iff] at others
        exact closed.gather others.2 rest
      · exact closed.gather (List.cons_ne_nil _ _)
          (List.forall_mem_cons.mpr ⟨closed.number _, rest⟩)

theorem simplifyNary (closed : RuleClosed names P) {op : NaryOp} {args : List (Tree α)}
    (nonempty : args ≠ []) (each : ∀ t ∈ args, P levels t) :
    P (levels + 1) (.simplifyNary op args) := by
  unfold Tree.simplifyNary
  dsimp only
  split
  · exact closed.symbol _
  · split
    · exact closed.symbol _
    · exact closed.combine (closed.flatten_ne_nil nonempty each) (closed.flatten each)

theorem simplifyRelation (closed : RuleClosed names P) (op : Comparison) (left : P levels a)
    (right : P levels b) : P (levels + 1) (.simplifyRelation op a b) := by
  unfold Tree.simplifyRelation
  split
  · split
    · exact closed.literal .one
    · exact closed.literal .zero
  · exact closed.node trivial (by simp) (by simpa [Node.children] using ⟨left, right⟩)

/-- Every rule of simplification keeps the property. -/
theorem reduce (closed : RuleClosed names P) {n : Node α (Tree α)} (proper : n.IsProper names)
    (each : ∀ t ∈ n.children, P levels t) : P (levels + 1) (.reduce n) := by
  cases n with
  | const v =>
      rw [Tree.reduce]
      split
      · rename_i finite
        exact closed.literal (.finite finite)
      · exact closed.number v
  | unary op a => exact closed.simplifyUnary op (each a (by simp [Node.children]))
  | binary op a b =>
      exact closed.simplifyBinary op (each a (by simp [Node.children]))
        (each b (by simp [Node.children]))
  | nary op args => exact closed.simplifyNary proper each
  | relation op a b =>
      exact closed.simplifyRelation op (each a (by simp [Node.children]))
        (each b (by simp [Node.children]))
  | _ => exact closed.node proper (by simp) each

/-- A simplified tree has the property, whether or not the tree does. -/
theorem simplify (closed : RuleClosed names P) {t : Tree α} (within : t.Within names levels) :
    P levels t.simplify := by
  induction within with
  | mk proper _ ih =>
      rw [Tree.simplify, fold_mk]
      exact closed.reduce ((Node.isProper_map _ _ _).mpr proper) (Node.forall_children_map.mpr ih)

end RuleClosed

theorem Within.ruleClosed : RuleClosed names fun levels t => t.Within names levels where
  literal _ := .const _
  node proper _ each := .mk proper each
  succ within := within.mono (Nat.le_succ _)
  of_child within is_child := within.of_child is_child
  operands_ne_nil within := by
    cases within with
    | mk proper _ => exact proper
  exists_eq_succ within := by
    cases within with
    | mk _ _ => exact ⟨_, rfl⟩

theorem simplify_within {levels : Nat} {t : Tree α} (within : t.Within names levels) :
    t.simplify.Within names levels :=
  Within.ruleClosed.simplify within

theorem substitute_within (placeholder : α) {levels : Nat} {t : Tree α}
    (within : t.Within names levels) :
    (t.substitute placeholder).Within names levels := by
  induction within with
  | mk proper _ ih =>
      rw [substitute_mk]
      split
      · exact .const _
      · exact .mk ((Node.isProper_map _ _ _).mpr proper) (Node.forall_children_map.mpr ih)

end Rules

end Tree

section Levels

theorem Tree.Within.depth_le {names : List (Node α Unit)} {levels : Nat} {t : Tree α}
    (within : t.Within names levels) : t.depth ≤ levels := by
  induction within with
  | @mk levels n proper _ ih =>
      have below : (n.children.map depth).foldl max 0 ≤ levels := by
        refine foldl_max_le_iff.mpr ⟨Nat.zero_le _, fun d member => ?_⟩
        obtain ⟨t, is_child, rfl⟩ := List.mem_map.mp member
        exact ih t is_child
      rw [depth_mk]
      omega

namespace Expr

theorem Valid.within_of_children {e r : Expr α} (valid : e.Valid) {names : List (Node α Unit)}
    (ordered : r.nodes.Ordered) (root_eq : r.root = e.root)
    (kept : ∀ i n, e.Reachable i → e.nodes[i]? = some n →
      ∃ m, r.nodes[i]? = some m ∧ m.IsProper names ∧ ∀ c ∈ m.children, c ∈ n.children) :
    r.unfold.Within names e.depth := by
  rw [depth_eq valid.ordered valid.root_lt, unfold_eq_treeAt, unfold_eq_treeAt, root_eq]
  refine valid.reachable_induction
    (P := fun i => (r.treeAt i).Within names (e.treeAt i).depth) ?_ .root
  intro i n reachable found children
  obtain ⟨m, found', proper, fewer⟩ := kept i n reachable found
  rw [Expr.treeAt_eq found' (ordered i _ found'), valid.treeAt_eq found, Tree.depth_mk,
    Nat.add_comm]
  refine .mk ((Node.isProper_map _ _ _).mpr proper) ?_
  rw [Node.children_map, Node.children_map, List.map_map, List.forall_mem_map]
  intro c is_child
  exact (children c (fewer c is_child)).mono
    ((foldl_max_le_iff.mp (Nat.le_refl _)).2 _ (List.mem_map_of_mem (fewer c is_child)))

theorem Valid.isProper {e : Expr α} (valid : e.Valid) {n : Node α NodeId} (reaches : e.Reaches n) :
    n.IsProper e.unfold.heads := by
  have named := reaches.head_mem_heads valid.ordered
  cases n with
  | var j => exact named
  | param j => exact named
  | call name args => exact named
  | nary op args =>
      obtain ⟨i, -, found⟩ := reaches
      exact valid.operands_ne_nil found
  | _ => trivial

/-- The tree of a valid formula is within its own names and levels. -/
theorem Valid.unfold_within {e : Expr α} (valid : e.Valid) :
    e.unfold.Within e.unfold.heads e.depth :=
  valid.within_of_children valid.ordered rfl fun i n reachable found =>
    ⟨n, found, valid.isProper ⟨i, reachable, found⟩, fun _ is_child => is_child⟩

end Expr

end Levels

end FormulaFit
