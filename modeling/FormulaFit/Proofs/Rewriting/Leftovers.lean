import FormulaFit.Proofs.Rewriting.Closure
import FormulaFit.Proofs.Rewriting.NormalForm

/-!
# What simplification leaves to another pass

A simplified formula without symbols is in normal form, and another pass leaves it alone.  With
symbols a rule may write a node that it does not look at again: a product around a product where a
product is divided by zero, or literals that overflow next to a symbol that decides the value.
Another pass changes a simplified formula exactly if such a node is left over in it.

The nodes that are not left over are fixed points of the rules; for the converse, no rule makes a
tree heavier, and what is left over makes it lighter.
-/

namespace FormulaFit

variable {α : Type}

/-- The rules have something left to do at a node: an operand is the same operator again, or symbols
among the operands decide the value. -/
inductive Node.IsLeftOver : Node α (Tree α) → Prop where
  | nested {op : NaryOp} {args children : List (Tree α)}
      (nested : .mk (.nary op children) ∈ args) : IsLeftOver (.nary op args)
  | undefined {op : NaryOp} {args : List (Tree α)}
      (undefined : .ofSymbol .nan ∈ args) : IsLeftOver (.nary op args)
  | opposite {args : List (Tree α)}
      (above : .ofSymbol .posInf ∈ args) (below : .ofSymbol .negInf ∈ args) :
      IsLeftOver (.nary .add args)

/-- A node counts as one, but bounds do not count: a rule may put them in the place of a symbol. -/
def Node.weight {β : Type} : Node α β → Nat
  | bounds .. => 0
  | _ => 1

theorem Node.weight_map {β γ : Type} (f : β → γ) (n : Node α β) : (n.map f).weight = n.weight := by
  cases n <;> rfl

namespace Tree

/-- Nothing in the tree is left over. -/
abbrev Clean : Tree α → Prop := All fun n => ¬n.IsLeftOver

section Tidiness

/-- The rules leave every node of the tree as it is, except what is left over. -/
abbrev Tidy : Tree Float → Prop := All fun n => n.IsLeftOver ∨ reduce n = mk n

variable {names : List (Node Float Unit)} {levels : Nat}

theorem tidy_of_changed {n : Node Float (Tree Float)} (each : ∀ t ∈ n.children, t.Tidy)
    (changes : reduce n ≠ mk n → (reduce n).Tidy) : (reduce n).Tidy := by
  by_cases kept : reduce n = mk n
  · rw [kept]
    exact .mk (.inr kept) each
  · exact changes kept

theorem tidy_const {v : Float} (finite : v.isFinite = true) : (const v).Tidy :=
  .mk (n := .const v) (.inr (if_pos finite)) (by simp [Node.children])

theorem tidy_ofSymbol (s : Symbol) : (ofSymbol s : Tree Float).Tidy :=
  .mk (n := .symbol s) (.inr rfl) (by simp [Node.children])

theorem tidy_number (v : Float) : (number v).Tidy := by
  unfold number
  split
  · exact tidy_ofSymbol _
  · rename_i regular
    exact tidy_const (Double.ofNonFinite?_eq_none_iff.mp regular)

theorem tidy_one : (const 1 : Tree Float).Tidy := tidy_const (by decide +kernel)

theorem tidy_zero : (const 0 : Tree Float).Tidy := tidy_const (by decide +kernel)

theorem tidy_oscillation : (oscillation : Tree Float).Tidy :=
  .mk (.inr rfl) (by simpa [Node.children] using ⟨tidy_const (by decide +kernel), tidy_one⟩)

theorem isFinite_of_tidy {v : Float} (tidy : (const v).Tidy) : v.isFinite = true := by
  rcases All.here (n := .const v) tidy with left_over | kept
  · cases left_over
  · by_contra infinite
    have infinite' : ¬Scalar.isFinite v = true := infinite
    rw [reduce, if_neg infinite', number] at kept
    split at kept
    · cases kept
    · rename_i regular
      exact infinite (Double.ofNonFinite?_eq_none_iff.mp regular)

theorem tidy_unaryOfSymbol? {op : UnaryOp} {s : Symbol} {t : Tree Float}
    (value : unaryOfSymbol? op s = some t) : t.Tidy := by
  unfold unaryOfSymbol? at value
  split at value <;> cases value
  all_goals first
    | exact tidy_ofSymbol _
    | exact tidy_oscillation
    | exact tidy_zero

theorem tidy_simplifyUnary {op : UnaryOp} {a : Tree Float} (tidy : a.Tidy) :
    (simplifyUnary op a).Tidy := by
  refine tidy_of_changed (n := .unary op a) (by simpa [Node.children] using tidy) fun changed => ?_
  rw [reduce] at changed ⊢
  generalize result_eq : simplifyUnary op a = result at changed ⊢
  unfold simplifyUnary at result_eq
  split at result_eq
  · subst result_eq
    unfold foldUnary
    dsimp only
    split
    · exact tidy_ofSymbol _
    · exact tidy_number _
  · split at result_eq
    · subst result_eq
      exact All.of_child tidy (by simp [Node.children])
    · cases value : a.symbol?.bind fun s => (unaryOfSymbol? op s : Option (Tree Float)) with
      | none =>
          rw [value] at result_eq
          exact (changed result_eq.symm).elim
      | some t =>
          rw [value] at result_eq
          subst result_eq
          obtain ⟨s, -, value⟩ := Option.bind_eq_some_iff.mp value
          exact tidy_unaryOfSymbol? value

theorem tidy_foldBinary (op : BinaryOp) (x y : Float) : (foldBinary op x y).Tidy := by
  unfold foldBinary
  split
  · exact tidy_number _
  · split
    · exact tidy_ofSymbol _
    · exact tidy_number _
  · split
    · exact tidy_ofSymbol _
    · split
      · exact tidy_ofSymbol _
      · exact tidy_number _

/-- Gathering gives a tidy tree: where nothing is left over, a literal leads, and it is neither
neutral nor absorbing. -/
theorem tidy_gather {op : NaryOp} {operands : List (Tree Float)} (nonempty : operands ≠ [])
    (tidy : ∀ t ∈ operands, t.Tidy)
    (gathered : (∀ t ∈ operands, ∀ children, t ≠ mk (.nary op children)) → 2 ≤ operands.length →
      op.Gathered operands) : (gather op operands).Tidy := by
  match operands, nonempty with
  | [t], _ => exact tidy t List.mem_cons_self
  | t :: u :: operands, _ =>
      refine .mk ?_ tidy
      by_cases left_over : (Node.nary op (t :: u :: operands)).IsLeftOver
      · exact .inl left_over
      · refine .inr (simplifyNary_of_gathered (fun v member => isFinite_of_tidy (tidy _ member))
          (fun undefined => left_over (.undefined undefined)) ?_ (gathered ?_ (by simp)))
        · rintro rfl above below
          exact left_over (.opposite above below)
        · rintro w member children rfl
          exact left_over (.nested member)

theorem tidy_combine {op : NaryOp} {operands : List (Tree Float)} (nonempty : operands ≠ [])
    (tidy : ∀ t ∈ operands, t.Tidy) : (combine op operands).Tidy := by
  let rest := operands.filter fun t => t.literal?.isNone
  have open_rest : ∀ t ∈ rest, t.literal? = none := fun t member =>
    Option.isNone_iff_eq_none.mp (List.mem_filter.mp member).2
  have tidy_rest : ∀ t ∈ rest, t.Tidy := fun t member => tidy t (List.mem_filter.mp member).1
  have tidy_gather_rest (others : rest ≠ []) : (gather op rest).Tidy :=
    tidy_gather others tidy_rest fun flat two_le => ⟨two_le, flat, .inl open_rest⟩
  unfold combine
  dsimp only
  split
  · rename_i no_literals
    rw [List.isEmpty_iff, List.filterMap_eq_nil_iff] at no_literals
    obtain ⟨t, member⟩ := List.exists_mem_of_ne_nil operands nonempty
    refine tidy_gather_rest (List.ne_nil_of_mem (List.mem_filter.mpr ⟨member, ?_⟩))
    rw [no_literals t member]
    rfl
  · split
    · split
      · exact tidy_ofSymbol _
      · exact tidy_zero
    · rename_i not_absorbing
      split
      · rename_i others
        rw [Bool.and_eq_true, Bool.not_eq_true', List.isEmpty_eq_false_iff] at others
        exact tidy_gather_rest others.2
      · rename_i not_neutral
        refine tidy_gather (List.cons_ne_nil _ _)
          (List.forall_mem_cons.mpr ⟨tidy_number _, tidy_rest⟩) fun flat two_le => ?_
        have others : rest ≠ [] := List.ne_nil_of_length_pos (Nat.lt_of_succ_lt_succ two_le)
        unfold number at flat two_le ⊢
        split at flat
        · refine ⟨two_le, flat, .inl (List.forall_mem_cons.mpr ⟨rfl, open_rest⟩)⟩
        · refine gathered_const_cons others open_rest (List.forall_mem_cons.mp flat).2 ?_ ?_
          · simpa [rest, others] using not_neutral
          · rintro rfl
            simpa using not_absorbing

theorem tidy_simplifyNary {op : NaryOp} {args : List (Tree Float)} (nonempty : args ≠ [])
    (within : ∀ t ∈ args, t.Within names levels) (tidy : ∀ t ∈ args, t.Tidy) :
    (simplifyNary op args).Tidy := by
  have placed : ∀ t ∈ flatten op args, t.Tidy := by
    intro t member
    rcases mem_flatten.mp member with ⟨is_arg, -⟩ | ⟨children, is_arg, is_child⟩
    · exact tidy t is_arg
    · exact All.of_child (tidy _ is_arg) is_child
  unfold simplifyNary
  dsimp only
  split
  · exact tidy_ofSymbol _
  · split
    · exact tidy_ofSymbol _
    · exact tidy_combine (Within.ruleClosed.flatten_ne_nil nonempty within) placed

theorem tidy_simplifySub {a b : Tree Float} (left : a.Tidy) (right : b.Tidy)
    (changed : simplifySub a b ≠ mk (.binary .sub a b)) : (simplifySub a b).Tidy := by
  unfold simplifySub at changed ⊢
  split_ifs at changed ⊢
  · exact left
  · exact tidy_simplifyUnary right
  · exact tidy_ofSymbol _
  · exact tidy_ofSymbol _
  · exact tidy_zero
  · exact (changed rfl).elim

theorem tidy_simplifyDiv {a b : Tree Float} (left : a.Tidy)
    (unfolded : a.literal? = none ∨ b.literal? = none)
    (changed : simplifyDiv a b ≠ mk (.binary .div a b)) : (simplifyDiv a b).Tidy := by
  unfold simplifyDiv at changed ⊢
  split_ifs at changed ⊢ with right_one right_zero
  · exact left
  · have open_dividend : a.literal? = none := by
      rcases unfolded with open_dividend | open_divisor
      · exact open_dividend
      · rw [isLiteral, open_divisor] at right_zero
        cases right_zero
    -- The product is written as it is, whatever the dividend is.
    have product : (gather .mul [ofSymbol .complexInf, a]).Tidy := by
      refine tidy_gather (List.cons_ne_nil _ _) (by simpa using ⟨tidy_ofSymbol _, left⟩)
        fun flat two_le => ⟨two_le, flat, .inl ?_⟩
      simpa using ⟨rfl, open_dividend⟩
    exact product
  · exact tidy_zero
  · exact tidy_one
  · exact (changed rfl).elim

theorem tidy_simplifyPow {a b : Tree Float} (left : a.Tidy)
    (changed : simplifyPow a b ≠ mk (.binary .pow a b)) : (simplifyPow a b).Tidy := by
  unfold simplifyPow at changed ⊢
  split_ifs at changed ⊢
  · exact left
  · exact tidy_one
  · exact (changed rfl).elim

theorem tidy_simplifyBinary {op : BinaryOp} {a b : Tree Float} (left : a.Tidy) (right : b.Tidy) :
    (simplifyBinary op a b).Tidy := by
  refine tidy_of_changed (n := .binary op a b) (by simpa [Node.children] using ⟨left, right⟩)
    fun changed => ?_
  rw [reduce] at changed ⊢
  generalize result_eq : simplifyBinary op a b = result at changed ⊢
  unfold simplifyBinary at result_eq
  split at result_eq
  · subst result_eq
    exact tidy_ofSymbol _
  · split at result_eq
    · subst result_eq
      exact tidy_foldBinary op _ _
    · rename_i other
      have unfolded : a.literal? = none ∨ b.literal? = none := by
        rw [or_iff_not_imp_left, ← ne_eq, Option.ne_none_iff_exists']
        rintro ⟨x, found⟩
        exact Option.eq_none_iff_forall_ne_some.mpr fun y found' => other x y found found'
      cases op with
      | sub =>
          subst result_eq
          exact tidy_simplifySub left right changed
      | div =>
          subst result_eq
          exact tidy_simplifyDiv left unfolded changed
      | pow =>
          subst result_eq
          exact tidy_simplifyPow left changed

theorem tidy_simplifyRelation {op : Comparison} {a b : Tree Float} (left : a.Tidy)
    (right : b.Tidy) : (simplifyRelation op a b).Tidy := by
  refine tidy_of_changed (n := .relation op a b) (by simpa [Node.children] using ⟨left, right⟩)
    fun changed => ?_
  rw [reduce] at changed ⊢
  generalize result_eq : simplifyRelation op a b = result at changed ⊢
  rw [simplifyRelation] at result_eq
  split at result_eq
  · subst result_eq
    split
    · exact tidy_one
    · exact tidy_zero
  · exact (changed result_eq.symm).elim

theorem tidy_reduce {n : Node Float (Tree Float)} (proper : n.IsProper names)
    (within : ∀ t ∈ n.children, t.Within names levels) (tidy : ∀ t ∈ n.children, t.Tidy) :
    (reduce n).Tidy := by
  cases n with
  | const v =>
      rw [reduce]
      split
      · rename_i finite
        exact tidy_const finite
      · exact tidy_number v
  | unary op a => exact tidy_simplifyUnary (tidy a (by simp [Node.children]))
  | binary op a b =>
      exact tidy_simplifyBinary (tidy a (by simp [Node.children]))
        (tidy b (by simp [Node.children]))
  | nary op args => exact tidy_simplifyNary proper within tidy
  | relation op a b =>
      exact tidy_simplifyRelation (tidy a (by simp [Node.children]))
        (tidy b (by simp [Node.children]))
  | _ => exact .mk (.inr rfl) tidy

theorem tidy_simplify {t : Tree Float} (within : t.Within names levels) : t.simplify.Tidy := by
  induction within with
  | mk proper below ih =>
      rw [simplify, fold_mk]
      exact tidy_reduce ((Node.isProper_map _ _ _).mpr proper)
        (Node.forall_children_map.mpr fun t is_child => simplify_within (below t is_child))
        (Node.forall_children_map.mpr ih)

/-- What is tidy and clean is simplified already. -/
theorem simplify_of_clean {t : Tree Float} (tidy : t.Tidy) (clean : t.Clean) : t.simplify = t := by
  refine simplify_eq_self ?_
  induction tidy with
  | mk here _ ih =>
      exact .mk (here.resolve_left clean.here) fun t is_child =>
        ih t is_child (clean.of_child is_child)

end Tidiness

section Weight

/-- Number of nodes that count. -/
def weight : Tree α → Nat := fold fun n => n.weight + n.children.sum

theorem weight_mk (n : Node α (Tree α)) :
    (mk n).weight = n.weight + (n.children.map weight).sum := by
  rw [weight, fold_mk, Node.weight_map, Node.children_map]

@[simp, grind =]
theorem weight_const (v : α) : (const v).weight = 1 := rfl

@[simp, grind =]
theorem weight_ofSymbol (s : Symbol) : (ofSymbol s : Tree α).weight = 1 := rfl

@[simp, grind =]
theorem weight_unary (op : UnaryOp) (a : Tree α) :
    (mk (.unary op a)).weight = 1 + a.weight := by
  simp [weight_mk, Node.weight, Node.children]

@[simp, grind =]
theorem weight_binary (op : BinaryOp) (a b : Tree α) :
    (mk (.binary op a b)).weight = 1 + (a.weight + b.weight) := by
  simp [weight_mk, Node.weight, Node.children]

@[simp, grind =]
theorem weight_nary (op : NaryOp) (args : List (Tree α)) :
    (mk (.nary op args)).weight = 1 + (args.map weight).sum := by
  simp [weight_mk, Node.weight, Node.children]

@[simp, grind =]
theorem weight_relation (op : Comparison) (a b : Tree α) :
    (mk (.relation op a b)).weight = 1 + (a.weight + b.weight) := by
  simp [weight_mk, Node.weight, Node.children]

theorem weight_pos (t : Tree α) : 0 < t.weight := by
  induction t using Tree.induction with
  | step n ih =>
      rw [weight_mk]
      cases n with
      | bounds low high =>
          exact Nat.add_pos_right _ (Nat.add_pos_left (ih low (by simp [Node.children])) _)
      | _ => exact Nat.add_pos_left Nat.one_pos _

variable [Scalar α]

@[simp, grind =]
theorem weight_number (v : α) : (number v).weight = 1 := by
  unfold number
  split <;> rfl

@[simp]
theorem weight_oscillation : (oscillation : Tree α).weight = 2 := by
  simp [oscillation, weight_mk, Node.weight, Node.children]

theorem weight_unaryOfSymbol? {op : UnaryOp} {s : Symbol} {t : Tree α}
    (value : unaryOfSymbol? op s = some t) : t.weight ≤ 2 := by
  unfold unaryOfSymbol? at value
  split at value <;> cases value
  all_goals simp

theorem weight_simplifyUnary (op : UnaryOp) (a : Tree α) :
    (simplifyUnary op a).weight ≤ 1 + a.weight := by
  have positive := a.weight_pos
  unfold simplifyUnary
  split
  · unfold foldUnary
    dsimp only
    split <;> simp
  · split
    · simp only [weight_unary]
      omega
    · cases value : a.symbol?.bind fun s => (unaryOfSymbol? op s : Option (Tree α)) with
      | none => simp
      | some t =>
          obtain ⟨s, -, value⟩ := Option.bind_eq_some_iff.mp value
          have light := weight_unaryOfSymbol? value
          rw [Option.getD_some]
          omega

theorem weight_foldBinary (op : BinaryOp) (x y : α) : (foldBinary op x y).weight = 1 := by
  unfold foldBinary
  split
  · simp
  · split <;> simp
  · split_ifs <;> simp

theorem weight_simplifyBinary (op : BinaryOp) (a b : Tree α) :
    (simplifyBinary op a b).weight ≤ 1 + (a.weight + b.weight) := by
  have left_pos := a.weight_pos
  have right_pos := b.weight_pos
  unfold simplifyBinary
  split
  · rw [weight_ofSymbol]
    omega
  · split
    · rw [weight_foldBinary]
      omega
    · cases op with
      | sub =>
          have negated := weight_simplifyUnary .neg b
          simp only [simplifySub]
          grind
      | div =>
          simp only [simplifyDiv]
          grind
      | pow =>
          simp only [simplifyPow]
          grind

omit [Scalar α] in
theorem weight_flatten (op : NaryOp) (args : List (Tree α)) :
    ((flatten op args).map weight).sum ≤ (args.map weight).sum ∧
      ∀ children, mk (.nary op children) ∈ args →
        ((flatten op args).map weight).sum < (args.map weight).sum := by
  have single (t : Tree α) : ((flatten op [t]).map weight).sum ≤ t.weight ∧
      ∀ children, mk (.nary op children) = t →
        ((flatten op [t]).map weight).sum < t.weight := by
    obtain ⟨n⟩ := t
    cases n with
    | nary inner children =>
        by_cases same : inner = op
        · subst same
          simp [flatten]
        · simp [flatten, same, Ne.symm same]
    | _ => simp [flatten]
  induction args with
  | nil => simp [flatten]
  | cons t args ih =>
      rw [flatten_cons, List.map_append, List.sum_append, List.map_cons, List.sum_cons]
      refine ⟨Nat.add_le_add (single t).1 ih.1, fun children member => ?_⟩
      rcases List.mem_cons.mp member with same | later
      · exact Nat.add_lt_add_of_lt_of_le ((single t).2 children same) ih.1
      · exact Nat.add_lt_add_of_le_of_lt (single t).1 (ih.2 children later)

theorem weight_gather (op : NaryOp) (operands : List (Tree α)) :
    (gather op operands).weight ≤ 1 + (operands.map weight).sum := by
  match operands with
  | [] => simp [gather]
  | [t] => simp [gather]
  | t :: u :: operands => exact Nat.le_of_eq (weight_nary op _)

theorem weight_rest (operands : List (Tree α)) :
    (operands.filterMap literal?).length +
      ((operands.filter fun t => t.literal?.isNone).map weight).sum ≤
        (operands.map weight).sum := by
  induction operands with
  | nil => simp
  | cons t operands ih =>
      have positive := t.weight_pos
      cases found : t.literal? with
      | none => simp [found]; omega
      | some v => simp [found]; omega

theorem weight_combine (op : NaryOp) (operands : List (Tree α)) :
    (combine op operands).weight ≤ 1 + (operands.map weight).sum := by
  have rest_le := weight_rest operands
  unfold combine
  dsimp only
  split
  · exact (weight_gather op _).trans (by omega)
  · rename_i some_literal
    have literals_pos : 0 < (operands.filterMap literal?).length :=
      List.length_pos_of_ne_nil fun none_left => some_literal (List.isEmpty_iff.mpr none_left)
    split
    · split <;> simp
    · split
      · exact (weight_gather op _).trans (by omega)
      · refine (weight_gather op _).trans ?_
        rw [List.map_cons, List.sum_cons, weight_number]
        omega

theorem weight_simplifyNary (op : NaryOp) (args : List (Tree α)) :
    (simplifyNary op args).weight ≤ 1 + ((flatten op args).map weight).sum := by
  unfold simplifyNary
  dsimp only
  split_ifs
  · simp
  · simp
  · exact weight_combine op _

theorem weight_reduce_le (n : Node α (Tree α)) : (reduce n).weight ≤ (mk n).weight := by
  cases n with
  | const v =>
      rw [reduce]
      split <;> simp [weight_mk, Node.weight, Node.children]
  | unary op a => exact (weight_simplifyUnary op a).trans (weight_unary op a).ge
  | binary op a b => exact (weight_simplifyBinary op a b).trans (weight_binary op a b).ge
  | nary op args =>
      have placed := (weight_flatten op args).1
      have combined := weight_simplifyNary op args
      rw [reduce, weight_nary]
      omega
  | relation op a b =>
      rw [reduce, simplifyRelation]
      split
      · simp
      · exact Nat.le_refl _
  | _ => exact Nat.le_refl _

/-- What is left over makes the node lighter. -/
theorem weight_reduce_lt {n : Node α (Tree α)} (left_over : n.IsLeftOver) :
    (reduce n).weight < (mk n).weight := by
  have lighter {op : NaryOp} {args : List (Tree α)} {t : Tree α} (member : t ∈ args) (s : Symbol) :
      (ofSymbol s : Tree α).weight < (mk (.nary op args)).weight := by
    have one_le : t.weight ≤ (args.map weight).sum :=
      List.single_le_sum (by simp) _ (List.mem_map_of_mem member)
    have positive := t.weight_pos
    rw [weight_ofSymbol, weight_nary]
    omega
  cases left_over with
  | @nested op args children nested =>
      have placed := (weight_flatten op args).2 children nested
      have combined := weight_simplifyNary op args
      rw [reduce, weight_nary]
      omega
  | @undefined op args undefined =>
      have flat_member : ofSymbol .nan ∈ flatten op args :=
        mem_flatten.mpr (.inl ⟨undefined, by simp [ofSymbol]⟩)
      rw [reduce, simplifyNary, if_pos (contains_symbols_iff.mpr flat_member)]
      exact lighter undefined _
  | @opposite args above below =>
      have flat_member {s : Symbol} (member : ofSymbol s ∈ args) :
          ((flatten .add args).filterMap symbol?).contains s = true :=
        contains_symbols_iff.mpr (mem_flatten.mpr (.inl ⟨member, by simp [ofSymbol]⟩))
      rw [reduce, simplifyNary]
      split_ifs with undefined opposites
      · exact lighter above _
      · exact lighter above _
      · exact (opposites (by simp only [flat_member above, flat_member below, decide_true,
          Bool.and_true])).elim

omit [Scalar α] in
theorem weight_map_le {n : Node α (Tree α)} {f : Tree α → Tree α}
    (lighter : ∀ t ∈ n.children, (f t).weight ≤ t.weight) :
    (mk (n.map f)).weight ≤ (mk n).weight := by
  rw [weight_mk, weight_mk, Node.weight_map, Node.children_map, List.map_map]
  exact Nat.add_le_add_left (List.sum_le_sum lighter) _

theorem weight_simplify_le (t : Tree α) : t.simplify.weight ≤ t.weight := by
  induction t using Tree.induction with
  | step n ih =>
      rw [simplify, fold_mk]
      exact (weight_reduce_le _).trans (weight_map_le ih)

/-- A pass over a tidy tree that is not clean makes it lighter. -/
theorem weight_simplify_lt {t : Tree Float} (tidy : t.Tidy) (unclean : ¬t.Clean) :
    t.simplify.weight < t.weight := by
  induction tidy with
  | @mk n _ below ih =>
      rw [simplify, fold_mk]
      by_cases clean : ∀ u ∈ n.children, u.Clean
      · have left_over : n.IsLeftOver := by
          by_contra other
          exact unclean (.mk other clean)
        have children_eq : n.map simplify = n :=
          (Node.map_congr fun u is_child =>
            simplify_of_clean (below u is_child) (clean u is_child)).trans n.map_id'
        change (reduce (n.map simplify)).weight < _
        rw [children_eq]
        exact weight_reduce_lt left_over
      · simp only [not_forall] at clean
        obtain ⟨u, is_child, unclean⟩ := clean
        refine (weight_reduce_le _).trans_lt ?_
        rw [weight_mk, weight_mk, Node.weight_map, Node.children_map, List.map_map]
        refine Nat.add_lt_add_left (List.sum_lt_sum _ _ (fun v _ => v.weight_simplify_le) ?_) _
        exact ⟨u, is_child, ih u is_child unclean⟩

end Weight

/-- Another pass leaves a simplified tree alone exactly if nothing is left over in it. -/
theorem simplify_simplify_eq_iff {names : List (Node Float Unit)} {levels : Nat} {t : Tree Float}
    (within : t.Within names levels) :
    t.simplify.simplify = t.simplify ↔ t.simplify.Clean := by
  refine ⟨fun unchanged => ?_, simplify_of_clean (tidy_simplify within)⟩
  by_contra unclean
  have lighter := weight_simplify_lt (tidy_simplify within) unclean
  rw [unchanged] at lighter
  exact Nat.lt_irrefl _ lighter

theorem plain_of_isRegular {t : Tree Float} (finite : t.Finite) (regular : t.isRegular = true) :
    t.Plain := by
  induction finite with
  | @mk n here _ ih =>
      rw [isRegular, fold_mk] at regular
      have each (counted : (n.map isRegular).children.all id = true) :
          ∀ u ∈ n.children, u.Plain := by
        rw [Node.children_map, List.all_map, List.all_eq_true] at counted
        exact fun u is_child => ih u is_child (counted u is_child)
      cases n with
      | const v => exact .mk (here v rfl) (each regular)
      | symbol s => cases regular
      | relation op a b => cases regular
      | bounds a b => cases regular
      | _ => exact .mk trivial (each regular)

end Tree

namespace Expr

/-- Simplification of a valid formula in time gives one with finite literals only, which is in
normal form if no symbol, comparison or bounds occur in it. -/
theorem normal_of_simplify (deadline : Deadline) (e : Expr Float) (accepted : e.validate = .ok ())
    (unexpired : deadline.expired = false) :
    ∃ s, e.simplify deadline = .ok s ∧ s.unfold.Finite ∧
      (s.unfold.isRegular = true → s.unfold.Normal) := by
  have within := ((validate_eq_ok_iff e).mp accepted).unfold_within
  have finite := Tree.finite_simplify within
  refine ⟨_, simplify_eq_ok unexpired, ?_, ?_⟩
  · rwa [Tree.unfold_store]
  · rw [Tree.unfold_store]
    exact fun regular => e.unfold.settled_simplify (Tree.plain_of_isRegular finite regular)

/-- The formula `2 + ((x_0 - (2 - 2)) + 2)` with a shared literal. -/
def nestedSum : Expr Float :=
  ⟨#[.const 2, .binary .sub 0 0, .var 0, .binary .sub 2 1, .nary .add [3, 0], .nary .add [0, 4]], 5⟩

theorem nestedSum_normal :
    nestedSum.validate = .ok () ∧ Deadline.expired ⟨.simplify, 5000⟩ = false ∧
      ∃ s, nestedSum.simplify ⟨.simplify, 5000⟩ = .ok s ∧ s.unfold.Finite ∧ s.unfold.Normal := by
  have accepted : nestedSum.validate = .ok () := by decide +kernel
  have regular : nestedSum.unfold.simplify.isRegular = true := by decide +kernel
  obtain ⟨s, simplified, finite, normal⟩ :=
    normal_of_simplify ⟨.simplify, 5000⟩ nestedSum accepted rfl
  obtain rfl := Except.ok.inj (simplified.symm.trans (simplify_eq_ok rfl))
  exact ⟨accepted, rfl, _, simplified, finite, normal (by rwa [Tree.unfold_store])⟩

/-- Simplifying a valid formula and simplifying the result succeed in time, and give the same
formula exactly if the first pass leaves nothing over. -/
theorem simplify_twice_same_iff (first second : Deadline) (e : Expr Float)
    (accepted : e.validate = .ok ()) (unexpired : first.expired = false)
    (unexpired_again : second.expired = false) :
    ∃ s t, e.simplify first = .ok s ∧ s.simplify second = .ok t ∧
      (t.same s = true ↔ s.unfold.Clean) := by
  have within := ((validate_eq_ok_iff e).mp accepted).unfold_within
  refine ⟨_, _, simplify_eq_ok unexpired, simplify_eq_ok unexpired_again, ?_⟩
  rw [same_iff (Tree.ordered_store _) (Tree.ordered_store _) (Tree.root_store_lt _)
    (Tree.root_store_lt _), Tree.unfold_store, Tree.unfold_store]
  exact Tree.simplify_simplify_eq_iff within

/-- The formula `1/0 - f(x_0) + (oo < sin(oo))`, where one pass does everything. -/
def unboundedDifference : Expr Float :=
  ⟨#[.const 1, .const 0, .binary .div 0 1, .var 0, .call "f" [3], .binary .sub 2 4,
    .symbol .posInf, .unary .sin 6, .relation .lt 6 7, .nary .add [5, 8]], 9⟩

theorem unboundedDifference_same :
    unboundedDifference.validate = .ok () ∧ Deadline.expired ⟨.simplify, 5000⟩ = false ∧
      ∃ s t, unboundedDifference.simplify ⟨.simplify, 5000⟩ = .ok s ∧
        s.simplify ⟨.simplify, 5000⟩ = .ok t ∧ t.same s = true ∧ s.unfold.Clean := by
  have accepted : unboundedDifference.validate = .ok () := by decide +kernel
  obtain ⟨s, t, simplified, again, same_iff⟩ :=
    simplify_twice_same_iff ⟨.simplify, 5000⟩ ⟨.simplify, 5000⟩ unboundedDifference accepted rfl rfl
  obtain rfl := Except.ok.inj (simplified.symm.trans (simplify_eq_ok rfl))
  obtain rfl := Except.ok.inj (again.symm.trans (simplify_eq_ok rfl))
  have same : (unboundedDifference.unfold.simplify.store.unfold.simplify.store.same
      unboundedDifference.unfold.simplify.store) = true := by decide +kernel
  exact ⟨accepted, rfl, _, _, simplified, again, same, same_iff.mp same⟩

/-- The formula `(x_0*x_1)/0`: the quotient becomes `zoo*(x_0*x_1)`, a product in a product. -/
def dividedProduct : Expr Float :=
  ⟨#[.var 0, .var 1, .nary .mul [0, 1], .const 0, .binary .div 2 3], 4⟩

/-- Another pass may still change a simplified formula. -/
theorem dividedProduct_changes :
    dividedProduct.validate = .ok () ∧
      ∃ s t, dividedProduct.simplify ⟨.simplify, 5000⟩ = .ok s ∧
        s.simplify ⟨.simplify, 5000⟩ = .ok t ∧ t.same s = false :=
  ⟨by decide +kernel, _, _, simplify_eq_ok rfl, simplify_eq_ok rfl, by decide +kernel⟩

end Expr

end FormulaFit
