import FormulaFit.Proofs.Arena.Occurrence
import FormulaFit.Proofs.Rewriting.Simplification
import FormulaFit.Proofs.Scalar.Words

/-!
# Normal forms

A plain tree has nothing but finite literals, features, coefficients, functions and operators.  In
normal form no operator of it has only literals, a neutral or absorbing literal, or an operand that
belongs to the operator itself.  A simplified tree that is plain is in normal form, and plain trees
in normal form are simplified already.
-/

namespace FormulaFit

variable {α : Type} [Scalar α]

/-- The node is a finite literal, a feature, a coefficient, a function or an operator. -/
def Node.IsPlain {β : Type} : Node α β → Prop
  | const v => Scalar.isFinite v = true
  | symbol _ | relation .. | bounds .. => False
  | _ => True

/-- The operands of an operator are normal: a literal among them leads, and it is neither neutral
nor absorbing, and none of the others is the same operator again. -/
structure NaryOp.Gathered (op : NaryOp) (args : List (Tree α)) : Prop where
  two_le : 2 ≤ args.length
  flat : ∀ t ∈ args, ∀ children, t ≠ .mk (.nary op children)
  leading : (∀ t ∈ args, t.literal? = none) ∨
    ∃ v rest, args = .const v :: rest ∧ (∀ t ∈ rest, t.literal? = none) ∧
      (op = .add → Scalar.eq v 0 = false) ∧
      (op = .mul → Scalar.eq v 0 = false ∧ Scalar.eq v 1 = false)

/-- Nothing of the node folds, cancels or disappears. -/
def Node.IsNormal : Node α (Tree α) → Prop
  | unary op a => a.literal? = none ∧ (op = .neg → ∀ b, a ≠ .mk (.unary .neg b))
  | binary op a b => (a.literal? = none ∨ b.literal? = none) ∧
    match op with
    | .sub => a.isLiteral 0 = false ∧ b.isLiteral 0 = false ∧ a ≠ b
    | .div => a.isLiteral 0 = false ∧ b.isLiteral 0 = false ∧ b.isLiteral 1 = false ∧ a ≠ b
    | .pow => a.isLiteral 1 = false ∧ b.isLiteral 0 = false ∧ b.isLiteral 1 = false
  | nary op args => op.Gathered args
  | _ => True

namespace Tree

/-- The tree has no symbols and nothing degenerate. -/
abbrev Plain : Tree α → Prop := All Node.IsPlain

/-- The tree is in normal form. -/
abbrev Normal : Tree α → Prop := All Node.IsNormal

/-- The tree is in normal form if it is plain. -/
def Settled (t : Tree α) : Prop := t.Plain → t.Normal

theorem settled_const (v : α) : (const v).Settled := fun _ =>
  .mk (n := .const v) trivial (by simp [Node.children])

theorem settled_ofSymbol (s : Symbol) : (ofSymbol s : Tree α).Settled := fun plain =>
  False.elim (All.here (n := .symbol s) plain)

theorem settled_number (v : α) : (number v).Settled := by
  unfold number
  split
  · exact settled_ofSymbol _
  · exact settled_const v

theorem settled_unaryOfSymbol? {op : UnaryOp} {s : Symbol} {t : Tree α}
    (value : unaryOfSymbol? op s = some t) : t.Settled := by
  unfold unaryOfSymbol? at value
  split at value <;> cases value
  all_goals first
    | exact settled_ofSymbol _
    | exact settled_const _
    | exact fun plain => False.elim (All.here plain)

theorem settled_simplifyUnary {op : UnaryOp} {a : Tree α} (settled : a.Settled) :
    (simplifyUnary op a).Settled := by
  unfold simplifyUnary
  split
  · unfold foldUnary
    dsimp only
    split
    · exact settled_ofSymbol _
    · exact settled_number _
  · rename_i open_operand
    split
    · intro plain
      have plain_neg : (mk (.unary .neg _)).Plain :=
        .mk trivial (by simpa [Node.children] using plain)
      exact (settled plain_neg).of_child (by simp [Node.children])
    · rename_i other
      cases value : a.symbol?.bind fun s => (unaryOfSymbol? op s : Option (Tree α)) with
      | some t =>
          obtain ⟨s, -, value⟩ := Option.bind_eq_some_iff.mp value
          exact settled_unaryOfSymbol? value
      | none =>
          intro plain
          have normal := settled (All.of_child (n := .unary op a) plain (by simp [Node.children]))
          refine .mk (n := .unary op a) ⟨open_operand, ?_⟩ (by simpa [Node.children] using normal)
          rintro rfl b rfl
          exact other b rfl rfl

theorem settled_foldBinary (op : BinaryOp) (x y : α) : (foldBinary op x y).Settled := by
  unfold foldBinary
  split
  · exact settled_number _
  · split
    · exact settled_ofSymbol _
    · exact settled_number _
  · split
    · exact settled_ofSymbol _
    · split
      · exact settled_ofSymbol _
      · exact settled_number _

theorem isRegular_of_plain {t : Tree α} (plain : t.Plain) : t.isRegular = true := by
  induction plain with
  | @mk n here _ ih =>
      have regular : (n.map isRegular).children.all id = true := by
        rw [Node.children_map, List.all_eq_true]
        intro b member
        obtain ⟨t, is_child, rfl⟩ := List.mem_map.mp member
        exact ih t is_child
      rw [isRegular, fold_mk]
      cases n with
      | symbol s => exact here.elim
      | relation op a b => exact here.elim
      | bounds a b => exact here.elim
      | _ => exact regular

theorem ne_of_not_cancels {a b : Tree α} (plain : a.Plain) (kept : ¬cancels a b = true) :
    a ≠ b := by
  rintro rfl
  rw [cancels, isRegular_of_plain plain, decide_eq_true rfl] at kept
  exact kept rfl

theorem settled_binary {op : BinaryOp} {a b : Tree α} (left : a.Settled) (right : b.Settled)
    (normal : a.Plain → b.Plain → (Node.binary op a b).IsNormal) :
    (mk (.binary op a b)).Settled := by
  intro plain
  have left_plain := All.of_child (n := .binary op a b) plain (t := a) (by simp [Node.children])
  have right_plain := All.of_child (n := .binary op a b) plain (t := b) (by simp [Node.children])
  refine .mk (normal left_plain right_plain) fun t is_child => ?_
  simp only [Node.children, List.mem_cons, List.not_mem_nil, or_false] at is_child
  rcases is_child with rfl | rfl
  · exact left left_plain
  · exact right right_plain

theorem settled_simplifySub {a b : Tree α} (left : a.Settled) (right : b.Settled)
    (unfolded : a.literal? = none ∨ b.literal? = none) : (simplifySub a b).Settled := by
  unfold simplifySub
  split
  · exact left
  · rename_i right_nonzero
    split
    · exact settled_simplifyUnary right
    · rename_i left_nonzero
      split
      · exact settled_ofSymbol _
      · split
        · exact settled_ofSymbol _
        · split
          · exact settled_const _
          · rename_i kept
            refine settled_binary left right fun plain _ => ⟨unfolded, ?_⟩
            exact ⟨Bool.eq_false_iff.mpr left_nonzero, Bool.eq_false_iff.mpr right_nonzero,
              ne_of_not_cancels plain kept⟩

theorem settled_simplifyDiv {a b : Tree α} (left : a.Settled) (right : b.Settled)
    (unfolded : a.literal? = none ∨ b.literal? = none) : (simplifyDiv a b).Settled := by
  unfold simplifyDiv
  split
  · exact left
  · rename_i right_not_one
    split
    · intro plain
      have zoo := All.of_child (n := .nary .mul [ofSymbol .complexInf, a]) plain List.mem_cons_self
      exact False.elim (All.here (n := .symbol .complexInf) zoo)
    · rename_i right_nonzero
      split
      · exact settled_const _
      · rename_i kept_dividend
        split
        · exact settled_const _
        · rename_i kept
          refine settled_binary left right fun plain right_plain => ⟨unfolded, ?_⟩
          have left_nonzero : a.isLiteral 0 = false := by
            simpa [isRegular_of_plain right_plain] using kept_dividend
          exact ⟨left_nonzero, Bool.eq_false_iff.mpr right_nonzero,
            Bool.eq_false_iff.mpr right_not_one, ne_of_not_cancels plain kept⟩

theorem settled_simplifyPow {a b : Tree α} (left : a.Settled) (right : b.Settled)
    (unfolded : a.literal? = none ∨ b.literal? = none) : (simplifyPow a b).Settled := by
  unfold simplifyPow
  split
  · exact left
  · rename_i right_not_one
    split
    · exact settled_const _
    · rename_i kept
      refine settled_binary left right fun _ _ => ⟨unfolded, ?_⟩
      rw [Bool.or_eq_true, not_or, Bool.not_eq_true, Bool.not_eq_true] at kept
      exact ⟨kept.2, kept.1, Bool.eq_false_iff.mpr right_not_one⟩

theorem settled_simplifyBinary {op : BinaryOp} {a b : Tree α} (left : a.Settled)
    (right : b.Settled) : (simplifyBinary op a b).Settled := by
  unfold simplifyBinary
  split
  · exact settled_ofSymbol _
  · split
    · exact settled_foldBinary op _ _
    · rename_i other
      have unfolded : a.literal? = none ∨ b.literal? = none := by
        cases found : a.literal? with
        | none => exact .inl rfl
        | some x =>
            cases found' : b.literal? with
            | none => exact .inr rfl
            | some y => exact (other x y found found').elim
      cases op with
      | sub => exact settled_simplifySub left right unfolded
      | div => exact settled_simplifyDiv left right unfolded
      | pow => exact settled_simplifyPow left right unfolded

theorem eq_const_of_literal? {t : Tree α} {v : α} (found : t.literal? = some v) :
    t = const v ∧ Scalar.isFinite v = true := by
  obtain ⟨n⟩ := t
  cases n with
  | const w =>
      rw [literal?, root, Node.literal?] at found
      split at found
      · cases found
        rename_i finite
        exact ⟨rfl, finite⟩
      · cases found
  | _ => cases found

theorem plain_const {v : α} (finite : Scalar.isFinite v = true) : (const v).Plain :=
  .mk (n := .const v) finite (by simp [Node.children])

theorem number_of_plain {v : α} (plain : (number v).Plain) :
    number v = const v ∧ Scalar.isFinite v = true := by
  unfold number at plain ⊢
  split at plain
  · exact (All.here (n := .symbol _) plain).elim
  · exact ⟨rfl, All.here (n := .const v) plain⟩

omit [Scalar α] in
theorem mem_flatten {op : NaryOp} {args : List (Tree α)} {t : Tree α} :
    t ∈ flatten op args ↔ (t ∈ args ∧ ∀ children, t ≠ mk (.nary op children)) ∨
      ∃ children, mk (.nary op children) ∈ args ∧ t ∈ children := by
  have single (u : Tree α) : t ∈ flatten op [u] ↔
      (t = u ∧ ∀ children, t ≠ mk (.nary op children)) ∨
        ∃ children, u = mk (.nary op children) ∧ t ∈ children := by
    obtain ⟨n⟩ := u
    cases n with
    | nary inner children =>
        by_cases same : inner = op
        · subst same
          refine ⟨fun member => .inr ⟨children, rfl, by simpa [flatten] using member⟩, ?_⟩
          rintro (⟨rfl, other⟩ | ⟨children', same, is_child⟩)
          · exact (other _ rfl).elim
          · cases same
            simpa [flatten] using is_child
        · simp only [flatten, List.flatMap_cons, same, if_false, List.flatMap_nil,
            List.append_nil, List.mem_singleton]
          constructor
          · rintro rfl
            exact .inl ⟨rfl, by simp [same]⟩
          · rintro (⟨rfl, -⟩ | ⟨children', same', -⟩)
            · rfl
            · cases same'
              exact (same rfl).elim
    | _ => simp +contextual [flatten]
  have flatMap_eq : flatten op args = args.flatMap fun u => flatten op [u] := by
    simp [flatten]
  rw [flatMap_eq, List.mem_flatMap]
  constructor
  · rintro ⟨u, is_arg, member⟩
    rcases (single u).mp member with ⟨rfl, other⟩ | ⟨children, rfl, is_child⟩
    · exact .inl ⟨is_arg, other⟩
    · exact .inr ⟨children, is_arg, is_child⟩
  · rintro (⟨is_arg, other⟩ | ⟨children, is_arg, is_child⟩)
    · exact ⟨t, is_arg, (single t).mpr (.inl ⟨rfl, other⟩)⟩
    · exact ⟨_, is_arg, (single _).mpr (.inr ⟨children, rfl, is_child⟩)⟩

/-- If all operands in the place of nested operators are plain, they are in normal form, and no
operator is left to take the place of. -/
theorem normal_of_mem_flatten {op : NaryOp} {args : List (Tree α)}
    (settled : ∀ t ∈ args, t.Settled) (plain : ∀ t ∈ flatten op args, t.Plain) :
    ∀ t ∈ flatten op args, t.Normal ∧ ∀ children, t ≠ mk (.nary op children) := by
  intro t member
  rcases mem_flatten.mp member with ⟨is_arg, other⟩ | ⟨children, is_arg, is_child⟩
  · exact ⟨settled t is_arg (plain t member), other⟩
  · have nested_plain : (mk (.nary op children)).Plain :=
      .mk trivial fun u is_child => plain u (mem_flatten.mpr (.inr ⟨children, is_arg, is_child⟩))
    have normal := settled _ is_arg nested_plain
    have gathered : op.Gathered children := All.here (n := .nary op children) normal
    exact ⟨All.of_child normal is_child, gathered.flat t is_child⟩

theorem settled_gather {op : NaryOp} {operands : List (Tree α)}
    (normal : (∀ t ∈ operands, t.Plain) → (∀ t ∈ operands, t.Normal) ∧
      (2 ≤ operands.length → op.Gathered operands)) : (gather op operands).Settled := by
  intro plain
  match operands with
  | [] => exact settled_const _ plain
  | [t] => exact (normal (by simpa [gather] using plain)).1 t List.mem_cons_self
  | t :: u :: operands =>
      have each : ∀ w ∈ t :: u :: operands, w.Plain := fun w member =>
        All.of_child (n := .nary op (t :: u :: operands)) plain member
      exact .mk ((normal each).2 (by simp)) (normal each).1

/-- A literal stays in front of the other operands if it is neither neutral nor absorbing. -/
theorem gathered_const_cons {op : NaryOp} {v : α} {rest : List (Tree α)} (nonempty : rest ≠ [])
    (open_rest : ∀ t ∈ rest, t.literal? = none)
    (flat : ∀ t ∈ rest, ∀ children, t ≠ mk (.nary op children))
    (not_neutral : isNeutral op v = false) (not_absorbing : op = .mul → Scalar.eq v 0 = false) :
    op.Gathered (const v :: rest) where
  two_le := Nat.succ_le_succ (List.length_pos_of_ne_nil nonempty)
  flat := by
    refine List.forall_mem_cons.mpr ⟨fun children same => ?_, flat⟩
    cases same
  leading := by
    refine .inr ⟨v, rest, rfl, open_rest, ?_, fun is_mul => ⟨not_absorbing is_mul, ?_⟩⟩
    · rintro rfl
      simpa [isNeutral, NaryOp.identity] using not_neutral
    · subst is_mul
      simpa [isNeutral, NaryOp.identity] using not_neutral

theorem settled_combine {op : NaryOp} {args : List (Tree α)} (settled : ∀ t ∈ args, t.Settled) :
    (combine op (flatten op args)).Settled := by
  let rest := (flatten op args).filter fun t => t.literal?.isNone
  have open_rest : ∀ t ∈ rest, t.literal? = none := fun t member =>
    Option.isNone_iff_eq_none.mp (List.mem_filter.mp member).2
  -- The operands that were literals are plain anyhow.
  have normal_rest (plain : ∀ t ∈ rest, t.Plain) :
      ∀ t ∈ rest, t.Normal ∧ ∀ children, t ≠ mk (.nary op children) := by
    refine fun t member => normal_of_mem_flatten settled (fun u placed => ?_) t
      (List.mem_filter.mp member).1
    cases found : u.literal? with
    | none => exact plain u (List.mem_filter.mpr ⟨placed, by rw [found]; rfl⟩)
    | some v =>
        obtain ⟨rfl, finite⟩ := eq_const_of_literal? found
        exact plain_const finite
  have settled_rest : (gather op rest).Settled := settled_gather fun plain =>
    ⟨fun t member => (normal_rest plain t member).1, fun two_le =>
      ⟨two_le, fun t member => (normal_rest plain t member).2, .inl open_rest⟩⟩
  unfold combine
  dsimp only
  split
  · exact settled_rest
  · split
    · split
      · exact settled_ofSymbol _
      · exact settled_const _
    · rename_i not_absorbing
      split
      · exact settled_rest
      · rename_i not_neutral
        refine settled_gather fun plain => ?_
        obtain ⟨head, later⟩ := List.forall_mem_cons.mp plain
        obtain ⟨number_eq, finite⟩ := number_of_plain head
        rw [number_eq] at head ⊢
        have normal := normal_rest later
        refine ⟨List.forall_mem_cons.mpr ⟨settled_const _ head, fun t member =>
          (normal t member).1⟩, fun two_le => ?_⟩
        have nonempty : rest ≠ [] := List.ne_nil_of_length_pos (Nat.lt_of_succ_lt_succ two_le)
        have stays : isNeutral op (op.fold ((flatten op args).filterMap literal?)) = false := by
          simpa [rest, nonempty] using not_neutral
        refine gathered_const_cons nonempty open_rest (fun t member => (normal t member).2) stays ?_
        rintro rfl
        simpa using not_absorbing

theorem settled_simplifyNary {op : NaryOp} {args : List (Tree α)}
    (settled : ∀ t ∈ args, t.Settled) : (simplifyNary op args).Settled := by
  unfold simplifyNary
  dsimp only
  split
  · exact settled_ofSymbol _
  · split
    · exact settled_ofSymbol _
    · exact settled_combine settled

theorem settled_reduce {n : Node α (Tree α)} (settled : ∀ t ∈ n.children, t.Settled) :
    (reduce n).Settled := by
  cases n with
  | const v =>
      rw [reduce]
      split
      · exact settled_const v
      · exact settled_number v
  | unary op a => exact settled_simplifyUnary (settled a (by simp [Node.children]))
  | binary op a b =>
      exact settled_simplifyBinary (settled a (by simp [Node.children]))
        (settled b (by simp [Node.children]))
  | nary op args => exact settled_simplifyNary settled
  | relation op a b =>
      rw [reduce, simplifyRelation]
      split
      · exact settled_const _
      · exact fun plain => False.elim (All.here (n := .relation op a b) plain)
  | symbol s => exact settled_ofSymbol s
  | bounds a b => exact fun plain => False.elim (All.here (n := .bounds a b) plain)
  | _ =>
      exact fun plain => .mk trivial fun t is_child =>
        settled t is_child (All.of_child plain is_child)

/-- A simplified tree that is plain is in normal form. -/
theorem settled_simplify (t : Tree α) : t.simplify.Settled := by
  induction t using Tree.induction with
  | step n ih =>
      rw [simplify, fold_mk]
      exact settled_reduce (Node.forall_children_map.mpr ih)

end Tree

section Doubles

theorem NaryOp.fold_singleton {op : NaryOp} {v : Float} (finite : v.isFinite = true)
    (nonzero : op = .add → Scalar.eq v 0 = false) : op.fold [v] = v := by
  cases op with
  | add => exact Double.zero_add_of_ne finite (nonzero rfl)
  | mul => exact Double.one_mul_of_finite finite
  | max => exact Double.max_negInf_of_finite finite
  | min => exact Double.min_posInf_of_finite finite

namespace Tree

theorem symbol?_of_plain {t : Tree Float} (plain : t.Plain) : t.symbol? = none := by
  obtain ⟨n⟩ := t
  cases n with
  | symbol s => exact (All.here plain).elim
  | _ => rfl

theorem literal?_const {v : Float} (finite : v.isFinite = true) : (const v).literal? = some v :=
  if_pos finite

theorem number_of_finite {v : Float} (finite : v.isFinite = true) : number v = const v := by
  rw [number, Double.ofNonFinite?_eq_none_iff.mpr finite]

theorem simplifyUnary_of_normal {op : UnaryOp} {a : Tree Float} (plain : a.Plain)
    (normal : (Node.unary op a).IsNormal) : simplifyUnary op a = mk (.unary op a) := by
  obtain ⟨open_operand, not_negated⟩ := normal
  unfold simplifyUnary
  rw [open_operand]
  dsimp only
  split
  · exact (not_negated rfl _ rfl).elim
  · rw [symbol?_of_plain plain]
    rfl

theorem simplifyBinary_of_normal {op : BinaryOp} {a b : Tree Float} (left : a.Plain)
    (right : b.Plain) (normal : (Node.binary op a b).IsNormal) :
    simplifyBinary op a b = mk (.binary op a b) := by
  obtain ⟨unfolded, normal⟩ := normal
  have kept : a ≠ b → cancels a b = false := fun other => by
    rw [cancels, Bool.and_eq_false_iff]
    exact .inr (decide_eq_false other)
  unfold simplifyBinary
  rw [symbol?_of_plain left, symbol?_of_plain right]
  simp only [reduceCtorEq, decide_false, Bool.or_self, Bool.false_eq_true, if_false]
  split
  · rename_i x y found found'
    rcases unfolded with none_found | none_found
    · rw [none_found] at found
      cases found
    · rw [none_found] at found'
      cases found'
  · cases op with
    | sub =>
        obtain ⟨left_nonzero, right_nonzero, other⟩ := normal
        simp [simplifySub, left_nonzero, right_nonzero, kept other, symbol?_of_plain left]
    | div =>
        obtain ⟨left_nonzero, right_nonzero, right_not_one, other⟩ := normal
        simp [simplifyDiv, left_nonzero, right_nonzero, right_not_one, kept other]
    | pow =>
        obtain ⟨left_not_one, right_nonzero, right_not_one⟩ := normal
        simp [simplifyPow, left_not_one, right_nonzero, right_not_one]

omit [Scalar α] in
theorem flatten_cons (op : NaryOp) (t : Tree α) (args : List (Tree α)) :
    flatten op (t :: args) = flatten op [t] ++ flatten op args := by
  simp [flatten]

omit [Scalar α] in
theorem flatten_eq_self {op : NaryOp} {args : List (Tree α)}
    (flat : ∀ t ∈ args, ∀ children, t ≠ mk (.nary op children)) : flatten op args = args := by
  induction args with
  | nil => rfl
  | cons t args ih =>
      obtain ⟨head, later⟩ := List.forall_mem_cons.mp flat
      have single : flatten op [t] = [t] := by
        obtain ⟨n⟩ := t
        cases n with
        | nary inner children =>
            have other : inner ≠ op := fun same => head children (same ▸ rfl)
            simp [flatten, other]
        | _ => rfl
      rw [flatten_cons, single, ih later]
      rfl

omit [Scalar α] in
theorem contains_symbols_iff {args : List (Tree α)} {s : Symbol} :
    (args.filterMap symbol?).contains s = true ↔ ofSymbol s ∈ args := by
  have symbol?_eq (t : Tree α) : t.symbol? = some s ↔ t = ofSymbol s := by
    obtain ⟨n⟩ := t
    cases n <;> simp [symbol?, ofSymbol]
  simp [symbol?_eq]

theorem gather_of_two_le {op : NaryOp} {operands : List (Tree α)}
    (two_le : 2 ≤ operands.length) : gather op operands = mk (.nary op operands) := by
  match operands with
  | [] => simp at two_le
  | [t] => simp at two_le
  | t :: u :: operands => rfl

/-- Gathered operands stay as they are unless a symbol among them decides the value. -/
theorem simplifyNary_of_gathered {op : NaryOp} {args : List (Tree Float)}
    (finite_args : ∀ v, const v ∈ args → v.isFinite = true)
    (defined : ofSymbol .nan ∉ args)
    (bounded : op = .add → ofSymbol .posInf ∈ args → ofSymbol .negInf ∉ args)
    (gathered : op.Gathered args) :
    simplifyNary op args = mk (.nary op args) := by
  have no_opposites : ¬(op = .add && (args.filterMap symbol?).contains .posInf &&
      (args.filterMap symbol?).contains .negInf) = true := by
    simpa only [Bool.and_eq_true, decide_eq_true_eq, contains_symbols_iff, not_and, and_imp]
      using bounded
  unfold simplifyNary
  rw [flatten_eq_self gathered.flat]
  dsimp only
  rw [if_neg (contains_symbols_iff.not.mpr defined), if_neg no_opposites]
  rcases gathered.leading with open_args | ⟨v, rest, rfl, open_rest, not_zero, not_neutral⟩
  · have literals_eq : args.filterMap literal? = [] := List.filterMap_eq_nil_iff.mpr open_args
    have rest_eq : (args.filter fun t => t.literal?.isNone) = args :=
      List.filter_eq_self.mpr fun t member => by rw [open_args t member]; rfl
    rw [combine, literals_eq, rest_eq]
    exact gather_of_two_le gathered.two_le
  · have finite := finite_args v List.mem_cons_self
    have literals_eq : (const v :: rest).filterMap literal? = [v] := by
      rw [List.filterMap_cons, literal?_const finite, List.filterMap_eq_nil_iff.mpr open_rest]
    have rest_eq : ((const v :: rest).filter fun t => t.literal?.isNone) = rest := by
      rw [List.filter_cons_of_neg (by simp [literal?_const finite])]
      exact List.filter_eq_self.mpr fun t member => by rw [open_rest t member]; rfl
    have not_absorbing : ¬(op = .mul && Scalar.eq v 0) = true := by
      rw [Bool.and_eq_true, decide_eq_true_eq]
      rintro ⟨is_mul, zero⟩
      rw [(not_neutral is_mul).1] at zero
      cases zero
    have kept : isNeutral op v = false := by
      cases op with
      | add => simpa [isNeutral, NaryOp.identity] using not_zero rfl
      | mul => simpa [isNeutral, NaryOp.identity] using (not_neutral rfl).2
      | max => rfl
      | min => rfl
    rw [combine, literals_eq, rest_eq, NaryOp.fold_singleton finite not_zero]
    simp only [List.isEmpty_cons, Bool.false_eq_true, if_false, not_absorbing, kept,
      Bool.false_and, number_of_finite finite]
    exact gather_of_two_le gathered.two_le

theorem reduce_of_normal {n : Node Float (Tree Float)} (normal : n.IsNormal)
    (plain : (mk n).Plain) :
    reduce n = mk n := by
  cases n with
  | const v => exact if_pos (All.here (n := .const v) plain)
  | unary op a =>
      exact simplifyUnary_of_normal (All.of_child plain (by simp [Node.children])) normal
  | binary op a b =>
      exact simplifyBinary_of_normal (All.of_child plain (by simp [Node.children]))
        (All.of_child plain (by simp [Node.children])) normal
  | nary op args =>
      have no_symbol (s : Symbol) : ofSymbol s ∉ args := fun member =>
        All.here (n := .symbol s) (All.of_child plain member)
      exact simplifyNary_of_gathered
        (fun v member => All.here (n := .const v) (All.of_child plain member)) (no_symbol _)
        (fun _ _ => no_symbol _) normal
  | relation op a b => exact (All.here plain).elim
  | _ => rfl

theorem simplify_eq_self {t : Tree α} (kept : t.All fun n => reduce n = mk n) :
    t.simplify = t := by
  induction kept with
  | @mk n here _ ih =>
      have children_eq : n.map simplify = n := (Node.map_congr ih).trans n.map_id'
      rw [simplify, fold_mk]
      exact (congrArg reduce children_eq).trans here

/-- Plain trees in normal form are simplified already. -/
theorem simplify_of_normal {t : Tree Float} (normal : t.Normal) (plain : t.Plain) :
    t.simplify = t := by
  refine simplify_eq_self ?_
  induction normal with
  | mk here _ ih =>
      exact .mk (reduce_of_normal here plain) fun t is_child =>
        ih t is_child (All.of_child plain is_child)

end Tree

end Doubles

end FormulaFit
