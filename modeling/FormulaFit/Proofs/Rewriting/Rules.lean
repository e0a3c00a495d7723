import FormulaFit.Expr.Simplify
import FormulaFit.Proofs.Arena.Walks

/-!
# Simplification as a function of the tree

The rules of simplification once more, on trees: what each of them appends to an arena stands for
what its counterpart makes of the trees of the operands.  So the simplified form of a formula is the
stored form of the simplified tree, for which everything about simplification is proved.
-/

namespace FormulaFit

namespace Tree

variable {α : Type}

/-- The symbol that the whole tree is. -/
def symbol? : Tree α → Option Symbol
  | mk (.symbol s) => some s
  | _ => none

/-- The tree contains no symbol, comparison or bounds. -/
def isRegular : Tree α → Bool := fold fun n =>
  match n with
  | .symbol _ | .relation .. | .bounds .. => false
  | n => n.children.all id

variable [Scalar α]

/-- The finite literal that the whole tree is. -/
def literal? (t : Tree α) : Option α := t.root.literal?

/-- The whole tree is a finite literal numerically equal to a value. -/
def isLiteral (v : α) (t : Tree α) : Bool :=
  match t.literal? with
  | some w => Scalar.eq w v
  | none => false

/-- Simplifies an operator of one simplified operand. -/
def simplifyUnary (op : UnaryOp) (a : Tree α) : Tree α :=
  match a.literal? with
  | some v => foldUnary op v
  | none =>
    match op, a with
    | .neg, mk (.unary .neg inner) => inner
    | op, a => ((a.symbol?).bind (unaryOfSymbol? op)).getD (mk (.unary op a))

/-- Both operands are the same and stand for one number. -/
def cancels (a b : Tree α) : Bool := a.isRegular && decide (a = b)

/-- Simplifies a difference of two simplified operands that are not both literals. -/
def simplifySub (a b : Tree α) : Tree α :=
  if b.isLiteral 0 then a
  else if a.isLiteral 0 then simplifyUnary .neg b
  else if a.symbol? = some .posInf && b.symbol? = some .posInf then ofSymbol .nan
  else if a.symbol? = some .negInf && b.symbol? = some .negInf then ofSymbol .nan
  else if cancels a b then const 0
  else mk (.binary .sub a b)

/-- Simplifies a quotient of two simplified operands that are not both literals. -/
def simplifyDiv (a b : Tree α) : Tree α :=
  if b.isLiteral 1 then a
  else if b.isLiteral 0 then mk (.nary .mul [ofSymbol .complexInf, a])
  else if a.isLiteral 0 && b.isRegular then const 0
  else if cancels a b then const 1
  else mk (.binary .div a b)

/-- Simplifies a power of two simplified operands that are not both literals. -/
def simplifyPow (a b : Tree α) : Tree α :=
  if b.isLiteral 1 then a
  else if b.isLiteral 0 || a.isLiteral 1 then const 1
  else mk (.binary .pow a b)

/-- Simplifies an operator of two simplified operands. -/
def simplifyBinary (op : BinaryOp) (a b : Tree α) : Tree α :=
  if a.symbol? = some .nan || b.symbol? = some .nan then ofSymbol .nan
  else
    match a.literal?, b.literal? with
    | some x, some y => foldBinary op x y
    | _, _ =>
      match op with
      | .sub => simplifySub a b
      | .div => simplifyDiv a b
      | .pow => simplifyPow a b

/-- The operands of an operator, with those of the same operator below it in its place. -/
def flatten (op : NaryOp) (args : List (Tree α)) : List (Tree α) :=
  args.flatMap fun
    | mk (.nary inner children) =>
      if inner = op then children else [mk (.nary inner children)]
    | t => [t]

/-- An operator over operands; none give its identity, and a single one stands for itself. -/
def gather (op : NaryOp) : List (Tree α) → Tree α
  | [] => const op.identity
  | [t] => t
  | operands => mk (.nary op operands)

/-- Combines the literals among flattened operands and puts the result before the rest. -/
def combine (op : NaryOp) (operands : List (Tree α)) : Tree α :=
  let literals := operands.filterMap literal?
  let rest := operands.filter fun t => t.literal?.isNone
  let value := op.fold literals
  if literals.isEmpty then gather op rest
  else if op = .mul && Scalar.eq value 0 then
    if (operands.filterMap symbol?).any Symbol.isUnbounded then ofSymbol .nan else const 0
  else if isNeutral op value && !rest.isEmpty then gather op rest
  else gather op (number value :: rest)

/-- Simplifies an operator of any number of simplified operands. -/
def simplifyNary (op : NaryOp) (args : List (Tree α)) : Tree α :=
  let operands := flatten op args
  let symbols := operands.filterMap symbol?
  if symbols.contains .nan then ofSymbol .nan
  else if op = .add && symbols.contains .posInf && symbols.contains .negInf then ofSymbol .nan
  else combine op operands

/-- Simplifies a comparison of two simplified operands; its truth is one and its falsity zero. -/
def simplifyRelation (op : Comparison) (a b : Tree α) : Tree α :=
  match a.literal?, b.literal? with
  | some x, some y => const (if op.holds x y then 1 else 0)
  | _, _ => mk (.relation op a b)

/-- Simplifies a node over simplified children. -/
def reduce : Node α (Tree α) → Tree α
  | .unary op a => simplifyUnary op a
  | .binary op a b => simplifyBinary op a b
  | .nary op args => simplifyNary op args
  | .relation op a b => simplifyRelation op a b
  | .const v => if Scalar.isFinite v then const v else number v
  | n => mk n

/-- The simplified form of a formula. -/
def simplify : Tree α → Tree α := fold reduce

theorem simplifyUnary_of_ne {op : UnaryOp} {a : Tree α} (unfolded : a.literal? = none)
    (other : ∀ inner, op = .neg → a ≠ mk (.unary .neg inner)) :
    simplifyUnary op a = ((a.symbol?).bind (unaryOfSymbol? op)).getD (mk (.unary op a)) := by
  unfold simplifyUnary
  rw [unfolded]
  dsimp only
  split
  · exact absurd rfl (other _ rfl)
  · rfl

end Tree

namespace Arena

variable {α : Type} {arena : Arena α}

theorem tree_of_getElem? (ordered : arena.Ordered) {i : NodeId} {n : Node α NodeId}
    (found : arena[i]? = some n) : arena.tree i = .mk (n.map arena.tree) :=
  Expr.treeAt_eq (e := ⟨arena, 0⟩) found (ordered i n found)

theorem exists_node {i : NodeId} (i_lt : i < arena.size) :
    ∃ n, arena[i]? = some n := ⟨_, Array.getElem?_eq_getElem i_lt⟩

section Lookups

variable (ordered : arena.Ordered) {i : NodeId} (i_lt : i < arena.size)

include ordered i_lt

theorem symbol?_tree : (arena.tree i).symbol? = arena.symbol? i := by
  obtain ⟨n, found⟩ := exists_node i_lt
  rw [tree_of_getElem? ordered found, symbol?, found]
  cases n <;> rfl

variable [Scalar α]

theorem literal?_tree : (arena.tree i).literal? = arena.literal? i := by
  obtain ⟨n, found⟩ := exists_node i_lt
  rw [tree_of_getElem? ordered found, literal?, found]
  cases n <;> rfl

theorem isLiteral_tree (v : α) : (arena.tree i).isLiteral v = arena.isLiteral v i := by
  have same := literal?_tree ordered i_lt
  cases found : arena.literal? i <;> simp only [Tree.isLiteral, isLiteral, same, found]

end Lookups

theorem isRegular_tree (i : NodeId) : (arena.tree i).isRegular = arena.isRegular i :=
  (Expr.fold_eq _ (⟨arena, i⟩ : Expr α)).symm

theorem cancels_tree [Scalar α] (ordered : arena.Ordered) {i j : NodeId} (i_lt : i < arena.size)
    (j_lt : j < arena.size) :
    Tree.cancels (arena.tree i) (arena.tree j) = arena.cancels i j := by
  have same_iff : (⟨arena, i⟩ : Expr α).same ⟨arena, j⟩ = true ↔ arena.tree i = arena.tree j :=
    Expr.same_iff ordered ordered i_lt j_lt
  rw [Tree.cancels, isRegular_tree, cancels]
  exact congrArg (arena.isRegular i && ·) (Bool.eq_iff_iff.mpr (by simp [same_iff]))

variable {t : Tree α}

theorem writes_get {f : Arena α → StateM (Arena α) NodeId} (writes : arena.Writes (f arena) t) :
    arena.Writes (do f (← get)) t :=
  ⟨writes.grown, writes.index_lt, writes.tree_eq⟩

section Rules

variable [Scalar α] (ordered : arena.Ordered) {a b : NodeId} (a_lt : a < arena.size)
  (b_lt : b < arena.size)

include ordered a_lt

theorem writes_simplifyUnary (op : UnaryOp) :
    arena.Writes (simplifyUnary op a) (Tree.simplifyUnary op (arena.tree a)) := by
  refine writes_get ?_
  cases folded : arena.literal? a with
  | some v =>
      rw [← literal?_tree ordered a_lt] at folded
      unfold Tree.simplifyUnary
      rw [folded]
      exact (Tree.foldUnary op v).stores_push arena ordered
  | none =>
      dsimp only
      split
      · rename_i inner found
        rw [tree_of_getElem? ordered found]
        exact writes_pure (Nat.lt_trans (ordered _ _ found _ (List.mem_singleton_self _)) a_lt)
      · rename_i other
        rw [← literal?_tree ordered a_lt] at folded
        rw [← symbol?_tree ordered a_lt, Tree.simplifyUnary_of_ne folded]
        · split
          · rename_i t value_eq
            rw [value_eq]
            exact t.stores_push arena ordered
          · rename_i value_eq
            rw [value_eq]
            exact writes_push fun c is_child => List.mem_singleton.mp is_child ▸ a_lt
        · rintro inner rfl tree_eq
          obtain ⟨n, found⟩ := exists_node a_lt
          rw [tree_of_getElem? ordered found] at tree_eq
          cases n <;> cases tree_eq
          exact other _ rfl found

include b_lt

theorem writes_simplifySub :
    arena.Writes (simplifySub a b) (Tree.simplifySub (arena.tree a) (arena.tree b)) := by
  refine writes_get ?_
  rw [Tree.simplifySub]
  simp only [isLiteral_tree ordered a_lt, isLiteral_tree ordered b_lt, symbol?_tree ordered a_lt,
    symbol?_tree ordered b_lt, cancels_tree ordered a_lt b_lt]
  split_ifs
  · exact writes_pure a_lt
  · exact writes_simplifyUnary ordered b_lt .neg
  · exact writes_push (by simp [Node.children])
  · exact writes_push (by simp [Node.children])
  · exact writes_push (by simp [Node.children])
  · exact writes_push (by simp [Node.children, a_lt, b_lt])

theorem writes_simplifyDiv :
    arena.Writes (simplifyDiv a b) (Tree.simplifyDiv (arena.tree a) (arena.tree b)) := by
  refine writes_get ?_
  rw [Tree.simplifyDiv]
  simp only [isLiteral_tree ordered a_lt, isLiteral_tree ordered b_lt, isRegular_tree,
    cancels_tree ordered a_lt b_lt]
  split_ifs
  · exact writes_pure a_lt
  · refine (writes_push (n := .symbol .complexInf) (by simp [Node.children])).bind
      fun after i grown i_lt tree_eq => ?_
    have product := writes_push (n := .nary .mul [i, a])
      (by simpa [Node.children] using ⟨i_lt, Nat.lt_of_lt_of_le a_lt grown.size_le⟩)
    simp only [Node.map, List.map_cons, List.map_nil, tree_eq, grown.tree_eq a a_lt] at product
    exact product
  · exact writes_push (by simp [Node.children])
  · exact writes_push (by simp [Node.children])
  · exact writes_push (by simp [Node.children, a_lt, b_lt])

theorem writes_simplifyPow :
    arena.Writes (simplifyPow a b) (Tree.simplifyPow (arena.tree a) (arena.tree b)) := by
  refine writes_get ?_
  rw [Tree.simplifyPow]
  simp only [isLiteral_tree ordered a_lt, isLiteral_tree ordered b_lt]
  split_ifs
  · exact writes_pure a_lt
  · exact writes_push (by simp [Node.children])
  · exact writes_push (by simp [Node.children, a_lt, b_lt])

theorem writes_simplifyBinary (op : BinaryOp) :
    arena.Writes (simplifyBinary op a b)
      (Tree.simplifyBinary op (arena.tree a) (arena.tree b)) := by
  have open_operands : arena.Writes
      (match op with
        | .sub => simplifySub a b
        | .div => simplifyDiv a b
        | .pow => simplifyPow a b)
      (match op with
        | .sub => Tree.simplifySub (arena.tree a) (arena.tree b)
        | .div => Tree.simplifyDiv (arena.tree a) (arena.tree b)
        | .pow => Tree.simplifyPow (arena.tree a) (arena.tree b)) := by
    cases op with
    | sub => exact writes_simplifySub ordered a_lt b_lt
    | div => exact writes_simplifyDiv ordered a_lt b_lt
    | pow => exact writes_simplifyPow ordered a_lt b_lt
  refine writes_get ?_
  unfold Tree.simplifyBinary
  simp only [symbol?_tree ordered a_lt, symbol?_tree ordered b_lt, literal?_tree ordered a_lt,
    literal?_tree ordered b_lt]
  split_ifs
  · exact writes_push (by simp [Node.children])
  · cases arena.literal? a with
    | none => exact open_operands
    | some x =>
        cases arena.literal? b with
        | none => exact open_operands
        | some y => exact (Tree.foldBinary op x y).stores_push arena ordered

theorem writes_simplifyRelation (op : Comparison) :
    arena.Writes (simplifyRelation op a b)
      (Tree.simplifyRelation op (arena.tree a) (arena.tree b)) := by
  have kept : arena.Writes (push (.relation op a b))
      (.mk (.relation op (arena.tree a) (arena.tree b))) :=
    writes_push (by simp [Node.children, a_lt, b_lt])
  refine writes_get ?_
  rw [Tree.simplifyRelation]
  simp only [literal?_tree ordered a_lt, literal?_tree ordered b_lt]
  cases arena.literal? a with
  | none => exact kept
  | some x =>
      cases arena.literal? b with
      | none => exact kept
      | some y => exact writes_push (by simp [Node.children])

end Rules

section Operands

variable {operands : List NodeId} (operands_lt : ∀ i ∈ operands, i < arena.size)

include operands_lt

theorem writes_gather [Scalar α] (op : NaryOp) :
    arena.Writes (gather op operands) (Tree.gather op (operands.map arena.tree)) := by
  match operands with
  | [] => exact writes_push (by simp [Node.children])
  | [i] => exact writes_pure (operands_lt i (List.mem_singleton_self i))
  | i :: j :: operands => exact writes_push operands_lt

variable (ordered : arena.Ordered)

include ordered

theorem filterMap_symbol?_tree :
    (operands.map arena.tree).filterMap Tree.symbol? = operands.filterMap arena.symbol? := by
  rw [List.filterMap_map]
  exact List.filterMap_congr fun i member => symbol?_tree ordered (operands_lt i member)

theorem flatten_lt (op : NaryOp) : ∀ i ∈ arena.flatten op operands, i < arena.size := by
  intro i member
  obtain ⟨j, operand, inside⟩ := List.mem_flatMap.mp member
  have j_lt := operands_lt j operand
  split at inside
  · rename_i inner children found
    split at inside
    · exact Nat.lt_trans (ordered _ _ found i inside) j_lt
    · exact List.mem_singleton.mp inside ▸ j_lt
  · exact List.mem_singleton.mp inside ▸ j_lt

theorem map_flatten (op : NaryOp) :
    (arena.flatten op operands).map arena.tree = Tree.flatten op (operands.map arena.tree) := by
  rw [flatten, Tree.flatten, List.map_flatMap, List.flatMap_map]
  refine List.flatMap_congr fun i member => ?_
  obtain ⟨n, found⟩ := exists_node (operands_lt i member)
  have tree_eq := tree_of_getElem? ordered found
  rw [tree_eq, found]
  cases n with
  | nary inner children =>
      simp only [Node.map]
      split_ifs
      · rfl
      · exact congrArg ([·]) tree_eq
  | _ => exact congrArg ([·]) tree_eq

variable [Scalar α]

theorem filterMap_literal?_tree :
    (operands.map arena.tree).filterMap Tree.literal? = operands.filterMap arena.literal? := by
  rw [List.filterMap_map]
  exact List.filterMap_congr fun i member => literal?_tree ordered (operands_lt i member)

theorem filter_literal?_tree :
    (operands.map arena.tree).filter (fun t => t.literal?.isNone) =
      (operands.filter fun i => (arena.literal? i).isNone).map arena.tree := by
  rw [List.filter_map]
  exact congrArg (List.map arena.tree) (List.filter_congr fun i member =>
    congrArg Option.isNone (literal?_tree ordered (operands_lt i member)))

theorem writes_combine (op : NaryOp) :
    arena.Writes (combine op operands) (Tree.combine op (operands.map arena.tree)) := by
  have rest_lt : ∀ i ∈ operands.filter fun i => (arena.literal? i).isNone, i < arena.size :=
    fun i member => operands_lt i (List.mem_of_mem_filter member)
  refine writes_get ?_
  rw [Tree.combine]
  simp only [filterMap_symbol?_tree operands_lt ordered,
    filterMap_literal?_tree operands_lt ordered, filter_literal?_tree operands_lt ordered]
  generalize operands.filter (fun i => (arena.literal? i).isNone) = rest at rest_lt ⊢
  rw [List.isEmpty_map]
  split_ifs
  · exact writes_gather rest_lt op
  · exact writes_push (by simp [Node.children])
  · exact writes_push (by simp [Node.children])
  · exact writes_gather rest_lt op
  · refine ((Tree.number _).stores_push arena ordered).bind fun after i grown i_lt tree_eq => ?_
    have kept : rest.map after.tree = rest.map arena.tree :=
      List.map_congr_left fun j member => grown.tree_eq j (rest_lt j member)
    have all_lt : ∀ j ∈ i :: rest, j < after.size := List.forall_mem_cons.mpr
      ⟨i_lt, fun j member => Nat.lt_of_lt_of_le (rest_lt j member) grown.size_le⟩
    have gathered := writes_gather all_lt op
    rwa [List.map_cons, tree_eq, kept] at gathered

theorem writes_simplifyNary (op : NaryOp) :
    arena.Writes (simplifyNary op operands) (Tree.simplifyNary op (operands.map arena.tree)) := by
  have flattened_lt := flatten_lt operands_lt ordered op
  refine writes_get ?_
  rw [Tree.simplifyNary]
  simp only [← map_flatten operands_lt ordered op, filterMap_symbol?_tree flattened_lt ordered]
  split_ifs
  · exact writes_push (by simp [Node.children])
  · exact writes_push (by simp [Node.children])
  · exact writes_combine flattened_lt ordered op

end Operands

end Arena

/-- Every rule on an arena writes what its counterpart makes of the trees of the operands. -/
theorem replaces_reduce {α : Type} [Scalar α] : Replaces (α := α) Arena.reduce Tree.reduce := by
  intro arena n ordered child_lt
  have pushed := Arena.writes_push child_lt
  cases n with
  | unary op a => exact Arena.writes_simplifyUnary ordered (child_lt a (by simp [Node.children])) op
  | binary op a b =>
      exact Arena.writes_simplifyBinary ordered (child_lt a (by simp [Node.children]))
        (child_lt b (by simp [Node.children])) op
  | nary op args => exact Arena.writes_simplifyNary child_lt ordered op
  | relation op a b =>
      exact Arena.writes_simplifyRelation ordered (child_lt a (by simp [Node.children]))
        (child_lt b (by simp [Node.children])) op
  | const v =>
      simp only [Node.map, Tree.reduce, Arena.reduce]
      split_ifs
      · exact pushed
      · exact (Tree.number v).stores_push arena ordered
  | _ => exact pushed

namespace Expr

variable {α : Type}

/-- The deadline is checked at every node, and at one node at least. -/
theorem visit_check (deadline : Deadline) (t : Tree α) :
    t.visit (fun _ => deadline.check) = deadline.check := by
  have twice : (do deadline.check; deadline.check) = deadline.check := by
    cases deadline.check <;> rfl
  have children (ts : List (Tree α)) (each : ∀ t ∈ ts, t.visit (fun _ => deadline.check) =
      deadline.check) :
      (do forM ts (Tree.visit fun _ => deadline.check); deadline.check) = deadline.check := by
    induction ts with
    | nil => rfl
    | cons t ts ih =>
        obtain ⟨first, later⟩ := List.forall_mem_cons.mp each
        rw [List.forM_cons, bind_assoc, ih later, first, twice]
  induction t using Tree.induction with
  | step n each =>
      rw [Tree.visit_mk]
      exact children n.children each

variable [Scalar α]

/-- Simplification stores the simplified tree, unless the deadline has passed. -/
theorem simplify_eq (e : Expr α) (deadline : Deadline) :
    e.simplify deadline = (do
      deadline.check
      return e.unfold.simplify.store) := by
  have rebuilt := e.rebuildM_eq (fun _ => deadline.check) Arena.reduce
  rw [visit_check] at rebuilt
  refine (congrArg (· >>= fun simplified => pure simplified.compact) rebuilt).trans ?_
  cases deadline.check with
  | error e => rfl
  | ok _ => exact congrArg Except.ok (by rw [compact_eq, unfold_rebuild replaces_reduce]; rfl)

theorem simplify_eq_ok {e : Expr α} {deadline : Deadline} (unexpired : deadline.expired = false) :
    e.simplify deadline = .ok e.unfold.simplify.store := by
  rw [simplify_eq, Deadline.check, unexpired]
  rfl

end Expr

end FormulaFit
