import FormulaFit.Formula.Printer
import FormulaFit.Proofs.Arena.Trees
import FormulaFit.Proofs.Formula.Reading
import FormulaFit.Proofs.Formula.Scanning
import FormulaFit.Proofs.Formula.Terms

/-!
# Printed formulas

The tokens of a printed formula follow its tree as its text does.  They derive the formula if every
literal is finite and no minus in front of an operand would be taken for the sign of a literal.  The
parentheses of operands nest at most twice as deeply as the tree.
-/

namespace FormulaFit
namespace Formula

/-- The tokens of a formula, and what an operand needs around them. -/
structure Written where
  tokens : List Token
  /-- No parentheses are due around the tokens of an operand. -/
  isAtom : Bool
  /-- Levels of operands that reading the tokens takes. -/
  nesting : Nat

namespace Written

/-- The tokens as an operand. -/
def operandTokens (w : Written) : List Token :=
  if w.isAtom then w.tokens else .leftParen :: (w.tokens ++ [.rightParen])

def operandNesting (w : Written) : Nat := if w.isAtom then w.nesting else w.nesting + 1

/-- Operands with a sign between them. -/
def join (separator : Token) (operands : List Written) : Written where
  tokens := [separator].intercalate (operands.map operandTokens)
  isAtom := false
  nesting := (operands.map operandNesting).foldl max 0

/-- A call of a function. -/
def apply (name : String) (args : List Written) : Written where
  tokens := .name name :: .leftParen :: ([.comma].intercalate (args.map tokens) ++ [.rightParen])
  isAtom := true
  nesting := (args.map nesting).foldl max 0 + 1

/-- A name or a literal without a sign. -/
def atom (token : Token) : Written := ⟨[token], true, 1⟩

end Written

open Written in
/-- Writes a node over its written children. -/
def writeNode : Node Float Written → Written
  | .const v =>
    if Double.isNegative v then ⟨[.minus, .number (Double.absolute v)], false, 1⟩
    else atom (.number (Double.absolute v))
  | .var i => atom (.name s!"x_{i.toNat}")
  | .param i => atom (.name s!"C_{i.toNat}")
  | .symbol .negInf => ⟨[.minus, .name "oo"], false, 1⟩
  | .symbol s => atom (.name s.name)
  | .unary .neg a => ⟨.minus :: a.operandTokens, false, a.operandNesting + 1⟩
  | .unary op a => apply op.name [a]
  | .binary .sub a b => join .minus [a, b]
  | .binary .div a b => join .slash [a, b]
  | .binary .pow a b =>
    ⟨(join .power [a, b]).tokens, false, max a.operandNesting (b.operandNesting + 1)⟩
  | .nary .add args => join .plus args
  | .nary .mul args => join .star args
  | .nary .max args => apply "max" args
  | .nary .min args => apply "min" args
  | .relation op a b => join (.relation op) [a, b]
  | .bounds a b => apply "AccumBounds" [a, b]
  | .call name args => apply name args

/-- The name of a function outside the vocabulary. -/
structure IsForeign (name : String) : Prop where
  isName : IsName name
  not_unary : unaryFunction? name = none
  not_nary : naryFunction? name = none
  not_clip : name ≠ "clip"
  not_bounds : name ≠ "AccumBounds"

end Formula

/-- The tokens of a formula. -/
def Tree.written : Tree Float → Formula.Written := fold Formula.writeNode

/-- Levels of operands in the text of a formula. -/
def Tree.nesting (t : Tree Float) : Nat := t.written.nesting

/-- A minus in front of the formula would be the sign of a literal. -/
def Tree.takesSign : Tree Float → Bool
  | mk (.const v) => !Double.isNegative v
  | mk (.symbol s) => s == .posInf
  | mk (.call name _) => name == "oo"
  | _ => false

/-- The text of the node means the node: a literal has digits, and a minus is not taken for the sign
of a literal. -/
def Node.isLegible : Node Float (Tree Float) → Bool
  | .const v => v.isFinite
  | .unary .neg a => !a.takesSign
  | _ => true

/-- The text of the formula means the formula. -/
def Tree.Legible (t : Tree Float) : Prop := t.All fun n => n.isLegible = true

instance (t : Tree Float) : Decidable t.Legible :=
  inferInstanceAs (Decidable (t.All fun n => n.isLegible = true))

/-- The node has a text of its own: an operator stands between operands, and a function outside the
vocabulary has a name outside it. -/
def Node.IsWritable : Node Float (Tree Float) → Prop
  | .nary _ args => 2 ≤ args.length
  | .call name _ => Formula.IsForeign name
  | _ => True

/-- Every node of the formula has a text of its own. -/
def Tree.Writable (t : Tree Float) : Prop := t.All Node.IsWritable

namespace Formula

/-- Reading the tokens gives the term, by themselves and as an operand. -/
structure Stands (w : Written) (t : Term) : Prop where
  nesting_pos : 0 < w.nesting
  formula : ∀ level, w.nesting ≤ level → Derives level w.tokens (.formula t)
  primary : ∀ level, w.operandNesting ≤ level + 1 → Derives level w.operandTokens (.primary t)

namespace Stands

variable {w : Written} {t : Term}

theorem of_atom (atom : w.isAtom = true) (nesting_pos : 0 < w.nesting)
    (primary : ∀ level, w.nesting ≤ level + 1 → Derives level w.tokens (.primary t)) :
    Stands w t where
  nesting_pos := nesting_pos
  formula level le := by
    obtain ⟨level, rfl⟩ :=
      Nat.exists_eq_succ_of_ne_zero (Nat.ne_zero_of_lt (nesting_pos.trans_le le))
    exact .side (.summand (.factor (.unsigned (.base (primary level le)))))
  primary level le := by
    rw [Written.operandNesting, if_pos atom] at le
    rw [Written.operandTokens, if_pos atom]
    exact primary level le

theorem of_not_atom (not_atom : w.isAtom = false) (nesting_pos : 0 < w.nesting)
    (formula : ∀ level, w.nesting ≤ level → Derives level w.tokens (.formula t)) :
    Stands w t where
  nesting_pos := nesting_pos
  formula := formula
  primary level le := by
    rw [Written.operandNesting, if_neg (by simp [not_atom])] at le
    rw [Written.operandTokens, if_neg (by simp [not_atom])]
    exact .enclosed (formula level (Nat.le_of_succ_le_succ le))

theorem of_signed {inner : Nat} (not_atom : w.isAtom = false) (nesting_eq : w.nesting = inner + 1)
    (operand : ∀ level, inner ≤ level → Derives (level + 1) w.tokens (.operand t)) :
    Stands w t := by
  refine .of_not_atom not_atom (nesting_eq ▸ Nat.succ_pos inner) fun level le => ?_
  rw [nesting_eq] at le
  obtain ⟨level, rfl⟩ := Nat.exists_eq_succ_of_ne_zero (Nat.ne_zero_of_lt le)
  exact .side (.summand (.factor (operand level (Nat.le_of_succ_le_succ le))))

theorem operandNesting_pos (stands : Stands w t) : 0 < w.operandNesting := by
  unfold Written.operandNesting
  split
  · exact stands.nesting_pos
  · exact Nat.succ_pos _

theorem operand (stands : Stands w t) {level : Nat} (le : w.operandNesting ≤ level) :
    Derives level w.operandTokens (.operand t) := by
  obtain ⟨level, rfl⟩ := Nat.exists_eq_succ_of_ne_zero
    (Nat.ne_zero_of_lt (stands.operandNesting_pos.trans_le le))
  exact .unsigned (.base (stands.primary level le))

end Stands

theorem intercalate_cons {β : Type} (separator first : List β) (others : List (List β)) :
    separator.intercalate (first :: others) = first ++ others.flatMap (separator ++ ·) := by
  induction others generalizing first with
  | nil => simp
  | cons second others ih =>
      rw [List.intercalate_cons_cons, ih, List.flatMap_cons, List.append_assoc, List.append_assoc]

section Derivations

variable {level : Nat} {ts : List Token} {chain : List Term} {t : Term} {β : Type}
  {tokens : β → List Token} {term : β → Term} {xs : List β}

/-- A phrase that takes one more item behind a separator takes any number of them. -/
theorem derives_all {separator : Token} (phrase : List Term → Phrase) {item : Term → Phrase}
    (step : ∀ {ts us : List Token} {chain : List Term} {t : Term},
      Derives level ts (phrase chain) → Derives level us (item t) →
        Derives level (ts ++ separator :: us) (phrase (chain ++ [t])))
    (first : Derives level ts (phrase chain))
    (each : ∀ x ∈ xs, Derives level (tokens x) (item (term x))) :
    Derives level (ts ++ xs.flatMap fun x => [separator] ++ tokens x)
      (phrase (chain ++ xs.map term)) := by
  induction xs generalizing ts chain with
  | nil => simpa using first
  | cons x xs ih =>
      rw [List.forall_mem_cons] at each
      simpa using ih (step first each.1) each.2

theorem Derives.add_all (summands : Derives level ts (.summands chain))
    (each : ∀ x ∈ xs, Derives level (tokens x) (.operand (term x))) :
    Derives level (ts ++ xs.flatMap fun x => [.plus] ++ tokens x)
      (.summands (chain ++ xs.map term)) :=
  derives_all .summands (fun before summand => .add before (.factor summand)) summands each

theorem Derives.times_all (factors : Derives level ts (.factors chain))
    (each : ∀ x ∈ xs, Derives level (tokens x) (.operand (term x))) :
    Derives level (ts ++ xs.flatMap fun x => [.star] ++ tokens x)
      (.factors (chain ++ xs.map term)) :=
  derives_all .factors .times factors each

theorem Derives.argument_all (first : Derives level ts (.formula t))
    (each : ∀ x ∈ xs, Derives level (tokens x) (.formula (term x))) :
    Derives level (ts ++ xs.flatMap fun x => [.comma] ++ tokens x)
      (.arguments (t :: xs.map term)) :=
  derives_all (fun chain => .arguments (t :: chain)) .nextArgument (.firstArgument first) each

theorem close_of_two_le {op : NaryOp} {operands : List Term} (two_le : 2 ≤ operands.length) :
    close op operands = .node (.nary op operands) := by
  match operands, two_le with
  | _ :: _ :: _, _ => rfl

theorem Calls.of_two_le {name : String} {op : NaryOp} {operands : List Term}
    (known : naryFunction? name = some op) (two_le : 2 ≤ operands.length) :
    Calls name operands (.node (.nary op operands)) := by
  rw [← close_of_two_le two_le]
  exact .nary known (List.ne_nil_of_length_pos (Nat.zero_lt_of_lt two_le))

end Derivations

section Nodes

variable {args : List (Tree Float)} {a b : Tree Float}

theorem written_mk (n : Node Float (Tree Float)) :
    (Tree.mk n).written = writeNode (n.map Tree.written) := Tree.fold_mk writeNode n

theorem operandTokens_join (separator : Token) (a : Tree Float) (args : List (Tree Float)) :
    (Written.join separator ((a :: args).map Tree.written)).tokens =
      a.written.operandTokens ++ args.flatMap fun t => [separator] ++ t.written.operandTokens := by
  rw [Written.join, List.map_cons, List.map_cons, intercalate_cons, List.map_map,
    List.flatMap_map]
  rfl

theorem operandNesting_le {separator : Token} {level : Nat}
    (le : (Written.join separator (args.map Tree.written)).nesting ≤ level) :
    ∀ t ∈ args, t.written.operandNesting ≤ level := by
  have within := (foldl_max_le_iff.mp le).2
  rw [List.map_map, List.forall_mem_map] at within
  exact within

theorem Stands.join {separator : Token} {term : Term} (nonempty : args ≠ [])
    (each : ∀ t ∈ args, Stands t.written (Term.ofTree t))
    (formula : ∀ level,
      (∀ t ∈ args, Derives level t.written.operandTokens (.operand (Term.ofTree t))) →
      Derives level (Written.join separator (args.map Tree.written)).tokens (.formula term)) :
    Stands (Written.join separator (args.map Tree.written)) term := by
  refine .of_not_atom rfl ?_ fun level le => formula level fun t member =>
    (each t member).operand (operandNesting_le le t member)
  obtain ⟨a, others, rfl⟩ := List.exists_cons_of_ne_nil nonempty
  have first : a.written.operandNesting ≤
      (Written.join separator ((a :: others).map Tree.written)).nesting :=
    operandNesting_le (Nat.le_refl _) a List.mem_cons_self
  exact (each a List.mem_cons_self).operandNesting_pos.trans_le first

theorem stands_chain {op : NaryOp} {separator : Token}
    (each : ∀ t ∈ args, Stands t.written (Term.ofTree t)) (two_le : 2 ≤ args.length)
    (derives : ∀ level ts t (others : List (Tree Float)), Derives level ts (.operand t) →
      (∀ u ∈ others, Derives level u.written.operandTokens (.operand (Term.ofTree u))) →
      Derives level (ts ++ others.flatMap fun u => [separator] ++ u.written.operandTokens)
        (.formula (close op (t :: others.map Term.ofTree)))) :
    Stands (.join separator (args.map Tree.written))
      (.node (.nary op (args.map Term.ofTree))) := by
  have nonempty : args ≠ [] := List.ne_nil_of_length_pos (Nat.lt_of_succ_lt two_le)
  refine .join nonempty each fun level operands => ?_
  obtain ⟨a, others, rfl⟩ := List.exists_cons_of_ne_nil nonempty
  rw [List.forall_mem_cons] at operands
  rw [operandTokens_join, ← close_of_two_le (List.length_map Term.ofTree ▸ two_le)]
  exact derives level _ _ others operands.1 operands.2

theorem stands_add (each : ∀ t ∈ args, Stands t.written (Term.ofTree t))
    (two_le : 2 ≤ args.length) : Stands (.join .plus (args.map Tree.written))
      (.node (.nary .add (args.map Term.ofTree))) :=
  stands_chain each two_le fun _ _ _ _ first others =>
    .side (.add_all (.summand (.factor first)) others)

theorem stands_mul (each : ∀ t ∈ args, Stands t.written (Term.ofTree t))
    (two_le : 2 ≤ args.length) : Stands (.join .star (args.map Tree.written))
      (.node (.nary .mul (args.map Term.ofTree))) :=
  stands_chain each two_le fun _ _ _ _ first others =>
    .side (.summand (.times_all (.factor first) others))

theorem stands_join_pair {separator : Token} {term : Term}
    (first : Stands a.written (Term.ofTree a)) (second : Stands b.written (Term.ofTree b))
    (formula : ∀ level, Derives level a.written.operandTokens (.operand (Term.ofTree a)) →
      Derives level b.written.operandTokens (.operand (Term.ofTree b)) →
      Derives level (a.written.operandTokens ++ separator :: b.written.operandTokens)
        (.formula term)) :
    Stands (.join separator [a.written, b.written]) term := by
  have each : ∀ t ∈ [a, b], Stands t.written (Term.ofTree t) := by simpa using ⟨first, second⟩
  refine .join (List.cons_ne_nil _ _) each fun level operands => ?_
  rw [operandTokens_join]
  simpa using formula level (operands a (by simp)) (operands b (by simp))

theorem stands_pow (first : Stands a.written (Term.ofTree a))
    (second : Stands b.written (Term.ofTree b)) :
    Stands (writeNode (.binary .pow a.written b.written))
      (.node (.binary .pow (Term.ofTree a) (Term.ofTree b))) := by
  have nesting_pos : 0 < max a.written.operandNesting (b.written.operandNesting + 1) :=
    first.operandNesting_pos.trans_le (Nat.le_max_left _ _)
  refine .of_not_atom rfl nesting_pos fun level le => ?_
  obtain ⟨le_first, le_second⟩ := Nat.max_le.mp le
  obtain ⟨level, rfl⟩ := Nat.exists_eq_succ_of_ne_zero
    (Nat.ne_zero_of_lt (Nat.succ_le_of_lt (Nat.lt_of_lt_of_le (Nat.succ_pos _) le_second)))
  have raised := Derives.raised (first.primary level le_first)
    (second.operand (Nat.le_of_succ_le_succ le_second))
  change Derives _ (Written.join .power ([a, b].map Tree.written)).tokens _
  rw [operandTokens_join]
  exact .side (.summand (.factor (.unsigned (by simpa using raised))))

theorem stands_neg (stands : Stands a.written (Term.ofTree a))
    (separate : ¬TakesSign a.written.operandTokens) :
    Stands (writeNode (.unary .neg a.written)) (.node (.unary .neg (Term.ofTree a))) :=
  .of_signed rfl rfl fun _ le => .minus (stands.operand le) separate

theorem Stands.apply {name : String} {term : Term}
    (each : ∀ t ∈ args, Stands t.written (Term.ofTree t))
    (value : Calls name (args.map Term.ofTree) term) :
    Stands (.apply name (args.map Tree.written)) term := by
  refine .of_atom rfl (Nat.succ_pos _) fun level le => .call ?_ value
  have within := (foldl_max_le_iff.mp (Nat.le_of_succ_le_succ le)).2
  rw [List.map_map, List.forall_mem_map] at within
  cases args with
  | nil => exact .noArguments
  | cons a args =>
      rw [List.forall_mem_cons] at each within
      rw [List.map_cons, List.map_cons, intercalate_cons, List.map_map, List.flatMap_map]
      exact .argument_all (each.1.formula level within.1)
        fun t member => (each.2 t member).formula level (within.2 t member)

theorem stands_atom {name : String} {n : Node Float Term} (value : Names name n) :
    Stands (.atom (.name name)) (.node n) :=
  .of_atom rfl Nat.one_pos fun _ _ => .atom value

/-- A finite literal is a numeral, with a minus in front of a negative one. -/
theorem stands_const {v : Float} (finite : v.isFinite = true) :
    Stands (writeNode (.const v)) (.node (.const v)) := by
  cases sign : Double.isNegative v with
  | false =>
      rw [writeNode, if_neg (by simp [sign]), Double.absolute_of_not_isNegative sign]
      exact .of_atom rfl Nat.one_pos fun _ _ => .number v
  | true =>
      rw [writeNode, if_pos sign]
      refine .of_signed rfl rfl fun level _ => ?_
      have literal : Derives (level + 1) _ _ := .negativeNumber (Double.absolute v)
      rwa [Double.neg_absolute finite sign] at literal

theorem stands_symbol (s : Symbol) : Stands (writeNode (.symbol s)) (.node (.symbol s)) := by
  cases s with
  | negInf => exact .of_signed rfl rfl fun _ _ => .negativeInfinity
  | _ => exact stands_atom (by constructor)

theorem toList_indexed (n : Nat) :
    s!"x_{n}".toList = 'x' :: '_' :: Decimal.digitsOf n ∧
      s!"C_{n}".toList = 'C' :: '_' :: Decimal.digitsOf n := by
  simp [Decimal.digitsOf, toString]

theorem stands_var (i : UInt64) : Stands (writeNode (.var i)) (.node (.var i)) :=
  stands_atom (.var (toList_indexed _).1 (Decimal.digits_digitsOf _) (Decimal.ofDigits_digitsOf _))

theorem stands_param (i : UInt64) : Stands (writeNode (.param i)) (.node (.param i)) :=
  stands_atom
    (.param (toList_indexed _).2 (Decimal.digits_digitsOf _) (Decimal.ofDigits_digitsOf _))

theorem name_ne_infinity (n : Nat) : s!"x_{n}" ≠ "oo" ∧ s!"C_{n}" ≠ "oo" := by
  constructor <;> intro name_eq
  · have := (toList_indexed n).1
    rw [name_eq] at this
    cases this
  · have := (toList_indexed n).2
    rw [name_eq] at this
    cases this

theorem not_takesSign (separate : a.takesSign = false) : ¬TakesSign a.written.operandTokens := by
  obtain ⟨n⟩ := a
  rw [written_mk]
  -- Only atoms are without parentheses, and an atom begins with its literal or its name.
  cases n with
  | const v =>
      have negative : Double.isNegative v = true := by simpa [Tree.takesSign] using separate
      simp [Node.map, writeNode, negative, Written.operandTokens, TakesSign]
  | var i => exact fun takes => (name_ne_infinity _).1 takes.1
  | param i => exact fun takes => (name_ne_infinity _).2 takes.1
  | symbol s =>
      cases s with
      | posInf => cases separate
      | negInf => exact id
      | _ => exact fun takes => absurd takes.1 (by decide)
  | unary op a =>
      cases op with
      | neg => exact id
      | _ => exact fun takes => absurd takes.1 (by decide)
  | binary op a b => cases op <;> exact id
  | nary op args =>
      cases op with
      | add | mul => exact id
      | max | min => exact fun takes => absurd takes.1 (by decide)
  | relation op a b => exact id
  | bounds a b => exact fun takes => absurd takes.1 (by decide)
  | call name args =>
      have other : name ≠ "oo" := by simpa [Tree.takesSign] using separate
      exact fun takes => other takes.1

end Nodes

/-- A formula is read back from its tokens. -/
theorem stands_written {t : Tree Float} (writable : t.Writable)
    (legible : t.Legible) : Stands t.written (Term.ofTree t) := by
  induction t using Tree.induction with
  | step n each =>
      have each : ∀ t ∈ n.children, Stands t.written (Term.ofTree t) := fun t member =>
        each t member (writable.of_child member) (legible.of_child member)
      rw [written_mk, Term.ofTree_mk]
      cases n with
      | const v => exact stands_const legible.here
      | var i => exact stands_var i
      | param i => exact stands_param i
      | symbol s => exact stands_symbol s
      | unary op a =>
          cases op with
          | neg =>
              have separate : a.takesSign = false := by simpa [Node.isLegible] using legible.here
              exact stands_neg (each a List.mem_cons_self) (not_takesSign separate)
          | _ => exact .apply each (.unary rfl _)
      | binary op a b =>
          have first := each a (by simp [Node.children])
          have second := each b (by simp [Node.children])
          cases op with
          | sub =>
              exact stands_join_pair first second fun level left right =>
                .side (.subtract (.summand (.factor left)) (.factor right))
          | div =>
              exact stands_join_pair first second fun level left right =>
                .side (.summand (.divide (.factor left) right))
          | pow => exact stands_pow first second
      | nary op args =>
          have two_le : 2 ≤ args.length := writable.here
          cases op with
          | add => exact stands_add each two_le
          | mul => exact stands_mul each two_le
          | max | min => exact .apply each (.of_two_le rfl (by simpa using two_le))
      | relation op a b =>
          have first := each a (by simp [Node.children])
          have second := each b (by simp [Node.children])
          exact stands_join_pair first second fun level left right =>
            .comparison op (.summand (.factor left)) (.summand (.factor right))
      | bounds a b => exact .apply each (.bounds _ _)
      | call name args =>
          have foreign : IsForeign name := writable.here
          exact .apply each (.foreign foreign.not_unary foreign.not_nary foreign.not_clip
            foreign.not_bounds _)

section Nesting

variable {bound : Nat} {ws : List Written}

theorem Written.operandNesting_le {w : Written} (le : w.nesting + 3 ≤ bound) :
    w.operandNesting + 2 ≤ bound := by
  unfold operandNesting
  split <;> omega

theorem Written.nesting_join_lt (separator : Token) (bound_ge : 2 ≤ bound)
    (each : ∀ w ∈ ws, w.nesting + 3 ≤ bound) : (join separator ws).nesting < bound := by
  have within : (ws.map operandNesting).foldl max 0 ≤ bound - 2 := by
    rw [foldl_max_le_iff, List.forall_mem_map]
    exact ⟨Nat.zero_le _, fun w member => Nat.le_sub_of_add_le (operandNesting_le (each w member))⟩
  change (ws.map operandNesting).foldl max 0 < bound
  omega

theorem Written.nesting_apply_lt (name : String) (bound_ge : 2 ≤ bound)
    (each : ∀ w ∈ ws, w.nesting + 3 ≤ bound) : (apply name ws).nesting < bound := by
  have within : (ws.map nesting).foldl max 0 ≤ bound - 2 := by
    rw [foldl_max_le_iff, List.forall_mem_map]
    exact ⟨Nat.zero_le _, fun w member => by have := each w member; omega⟩
  change (ws.map nesting).foldl max 0 + 1 < bound
  omega

/-- A node takes at most two levels more than its children, one of them for parentheses. -/
theorem nesting_writeNode_lt {n : Node Float Written} (bound_ge : 2 ≤ bound)
    (each : ∀ w ∈ n.children, w.nesting + 3 ≤ bound) : (writeNode n).nesting < bound := by
  cases n with
  | const v =>
      rw [writeNode]
      split <;> exact bound_ge
  | var i => exact bound_ge
  | param i => exact bound_ge
  | symbol s => cases s <;> exact bound_ge
  | unary op a =>
      cases op with
      | neg => exact Written.operandNesting_le (each a List.mem_cons_self)
      | _ => exact Written.nesting_apply_lt _ bound_ge each
  | binary op a b =>
      cases op with
      | sub | div => exact Written.nesting_join_lt _ bound_ge each
      | pow =>
          have first := Written.operandNesting_le (each a List.mem_cons_self)
          have second := Written.operandNesting_le (each b (by simp [Node.children]))
          exact Nat.max_lt.mpr ⟨by omega, second⟩
  | nary op args =>
      cases op with
      | add | mul => exact Written.nesting_join_lt _ bound_ge each
      | max | min => exact Written.nesting_apply_lt _ bound_ge each
  | relation op a b => exact Written.nesting_join_lt _ bound_ge each
  | bounds a b => exact Written.nesting_apply_lt _ bound_ge each
  | call name args => exact Written.nesting_apply_lt _ bound_ge each

end Nesting

end Formula

theorem Tree.nesting_lt_two_mul_depth (t : Tree Float) : t.nesting < 2 * t.depth := by
  induction t using Tree.induction with
  | step n each =>
      have depth_pos : 1 ≤ (mk n).depth := by
        rw [depth_mk]
        exact Nat.le_add_right _ _
      rw [nesting, Formula.written_mk]
      refine Formula.nesting_writeNode_lt (Nat.mul_le_mul_left 2 depth_pos) ?_
      refine Node.forall_children_map.mpr fun t member => ?_
      have inside : t.written.nesting < 2 * t.depth := each t member
      have deeper := depth_lt_of_child member
      omega

end FormulaFit
