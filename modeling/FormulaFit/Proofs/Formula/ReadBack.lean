import FormulaFit.Proofs.Formula.Spelling

/-!
# Reading printed formulas back

A formula whose text means it is read back from the text, node for node.  What the parser makes of
a text is such a formula but for two things: a literal that overflowed, which is printed by name,
and a minus in front of a literal in parentheses, which is printed without the parentheses.
-/

namespace FormulaFit
namespace Formula

section Parsed

theorem writable_node {n : Node Float Term} (here : (n.map Term.tree).IsWritable)
    (below : ∀ t ∈ n.children, t.tree.Writable) : (Term.node n).tree.Writable := by
  rw [Term.tree_node]
  exact .mk here (Node.forall_children_map.mpr below)

theorem writable_pair {n : Node Float Term} {t u : Term} (here : (n.map Term.tree).IsWritable)
    (children : n.children = [t, u]) (first : t.tree.Writable) (second : u.tree.Writable) :
    (Term.node n).tree.Writable := by
  refine writable_node here ?_
  rw [children, List.forall_mem_cons, List.forall_mem_singleton]
  exact ⟨first, second⟩

theorem writable_clip {value low high : Term} (first : value.tree.Writable)
    (second : low.tree.Writable) (third : high.tree.Writable) :
    (Term.clip value low high).tree.Writable := by
  have floor : (Tree.mk (.nary .max [value.tree, low.tree])).Writable :=
    .mk (Nat.le_refl 2) (by simpa [Node.children] using ⟨first, second⟩)
  rw [Term.tree_clip]
  exact .mk (Nat.le_refl 2) (by simpa [Node.children] using ⟨floor, third⟩)

theorem writable_close (op : NaryOp) {chain : List Term} (nonempty : chain ≠ [])
    (each : ∀ t ∈ chain, t.tree.Writable) : (close op chain).tree.Writable := by
  match chain, nonempty with
  | [t], _ => exact each t List.mem_cons_self
  | _ :: _ :: _, _ => exact writable_node (by simp [Node.map, Node.IsWritable]) each

theorem Names.isLeaf {name : String} {n : Node Float Term} (names : Names name n) :
    n.isLeaf = true := by
  cases names <;> rfl

theorem writable_leaf {n : Node Float Term} (leaf : n.isLeaf = true) :
    (Term.node n).tree.Writable := by
  cases n with
  | const | var | param | symbol => exact writable_node trivial (by simp [Node.children])
  | _ => cases leaf

theorem Calls.writable {name : String} {args : List Term} {t : Term} (calls : Calls name args t)
    (is_name : IsName name) (each : ∀ a ∈ args, a.tree.Writable) : t.tree.Writable := by
  cases calls with
  | unary known a => exact writable_node trivial each
  | nary known nonempty => exact writable_close _ nonempty each
  | clip value low high =>
      simp only [List.forall_mem_cons] at each
      exact writable_clip each.1 each.2.1 each.2.2.1
  | bounds low high => exact writable_node trivial each
  | foreign not_unary not_nary not_clip not_bounds args =>
      exact writable_node ⟨is_name, not_unary, not_nary, not_clip, not_bounds⟩ each

/-- All terms of the phrase are writable, and a chain has a term. -/
def Phrase.IsWritable : Phrase → Prop
  | .primary t | .power t | .operand t | .formula t => t.tree.Writable
  | .arguments args => ∀ t ∈ args, t.tree.Writable
  | .factors chain | .summands chain => chain ≠ [] ∧ ∀ t ∈ chain, t.tree.Writable

/-- The names among the tokens are names. -/
def Named (ts : List Token) : Prop := ∀ name, .name name ∈ ts → IsName name

section Named

variable {ts us : List Token} {separator : Token}

theorem Named.tail (named : Named (separator :: ts)) : Named ts :=
  fun name member => named name (List.mem_cons_of_mem _ member)

theorem Named.split (named : Named (ts ++ separator :: us)) : Named ts ∧ Named us :=
  ⟨fun name member => named name (List.mem_append_left _ member),
    fun name member => named name (List.mem_append_right _ (List.mem_cons_of_mem _ member))⟩

end Named

/-- Whatever derives from names is writable. -/
theorem Derives.isWritable {level : Nat} {ts : List Token} {p : Phrase}
    (derives : Derives level ts p) (named : Named ts) : p.IsWritable := by
  induction derives with
  | number v => exact writable_leaf rfl
  | atom value => exact writable_leaf value.isLeaf
  | enclosed inner ih => exact ih named.tail.split.1
  | call inner value ih =>
      exact value.writable (named _ List.mem_cons_self) (ih named.tail.tail.split.1)
  | noArguments => exact List.forall_mem_nil _
  | firstArgument argument ih => exact List.forall_mem_singleton.mpr (ih named)
  | nextArgument arguments argument ih ih' =>
      obtain ⟨front, back⟩ := named.split
      exact List.forall_mem_append.mpr ⟨ih front, List.forall_mem_singleton.mpr (ih' back)⟩
  | base primary ih | unsigned power ih => exact ih named
  | raised base exponent ih ih' =>
      obtain ⟨front, back⟩ := named.split
      exact writable_pair trivial rfl (ih front) (ih' back)
  | plus operand ih => exact ih named.tail
  | minus operand separate ih =>
      exact writable_node trivial (List.forall_mem_singleton.mpr (ih named.tail))
  | negativeNumber v => exact writable_leaf rfl
  | negativeInfinity => exact writable_leaf rfl
  | factor operand ih => exact ⟨List.cons_ne_nil _ _, List.forall_mem_singleton.mpr (ih named)⟩
  | times factors factor ih ih' =>
      obtain ⟨front, back⟩ := named.split
      exact ⟨List.append_ne_nil_of_right_ne_nil _ (List.cons_ne_nil _ _),
        List.forall_mem_append.mpr ⟨(ih front).2, List.forall_mem_singleton.mpr (ih' back)⟩⟩
  | divide factors divisor ih ih' =>
      obtain ⟨front, back⟩ := named.split
      have dividend := writable_close .mul (ih front).1 (ih front).2
      exact ⟨List.cons_ne_nil _ _,
        List.forall_mem_singleton.mpr (writable_pair trivial rfl dividend (ih' back))⟩
  | summand product ih =>
      exact ⟨List.cons_ne_nil _ _,
        List.forall_mem_singleton.mpr (writable_close .mul (ih named).1 (ih named).2)⟩
  | add summands product ih ih' =>
      obtain ⟨front, back⟩ := named.split
      have last := writable_close .mul (ih' back).1 (ih' back).2
      exact ⟨List.append_ne_nil_of_right_ne_nil _ (List.cons_ne_nil _ _),
        List.forall_mem_append.mpr ⟨(ih front).2, List.forall_mem_singleton.mpr last⟩⟩
  | subtract summands product ih ih' =>
      obtain ⟨front, back⟩ := named.split
      have minuend := writable_close .add (ih front).1 (ih front).2
      have subtrahend := writable_close .mul (ih' back).1 (ih' back).2
      exact ⟨List.cons_ne_nil _ _,
        List.forall_mem_singleton.mpr (writable_pair trivial rfl minuend subtrahend)⟩
  | side sum ih => exact writable_close .add (ih named).1 (ih named).2
  | comparison op first second ih ih' =>
      obtain ⟨front, back⟩ := named.split
      exact writable_pair trivial rfl (writable_close .add (ih front).1 (ih front).2)
        (writable_close .add (ih' back).1 (ih' back).2)

end Parsed

/-- A text that the parser accepts stands for a writable formula. -/
theorem exists_term_of_parse {text : String} {e : Expr Float} (parsed : parse text = .ok e) :
    ∃ t : Term, e = t.store ∧ t.tree.Writable ∧ t.tree.depth ≤ depthLimit := by
  rw [parse_eq] at parsed
  obtain ⟨ls, cut_eq, parsed⟩ := bind_eq_ok_iff.mp parsed
  obtain ⟨t, read_eq, stored⟩ := bind_eq_ok_iff.mp parsed
  obtain rfl := Except.ok.inj stored
  obtain ⟨derives, depth_le⟩ := derives_of_ofLexemes? read_eq
  refine ⟨t, rfl, derives.isWritable fun name member => ?_, depth_le⟩
  obtain ⟨l, member, named⟩ := List.mem_map.mp member
  exact Lexeme.isName_of_cut cut_eq member named

/-- The parser reads whatever is scanned as the tokens of a formula. -/
theorem parse_of_scans {text : String} {ts : List Token} {t : Term}
    (scans : Lexeme.Scans text.toList ts []) (derives : Derives depthLimit ts (.formula t))
    (depth_le : t.tree.depth ≤ depthLimit) : parse text = .ok t.store := by
  obtain ⟨ls, cut_eq, tokens⟩ := scans.exists_cut 0
  have whole : ofLexemes? ls = .ok t := ofLexemes?_eq_ok_iff.mpr ⟨tokens ▸ derives, depth_le⟩
  rw [parse_eq, Lexeme.ofText?, cut_eq]
  simp [bind, Except.bind, whole, pure, Except.pure]

theorem parse_display {t : Tree Float} (writable : t.Writable)
    (legible : t.Legible) (nesting_le : t.nesting ≤ depthLimit)
    (depth_le : t.depth ≤ depthLimit) : parse t.display = .ok (Term.ofTree t).store := by
  have covers := (spells_printed writable legible).covers [] (by simp [Lexeme.Ends])
  rw [List.append_nil] at covers
  have derives := (stands_written writable legible).formula depthLimit nesting_le
  exact parse_of_scans covers derives (by rwa [Term.tree_ofTree])

/-- Reading the printed text of a formula that was read from a text gives the same formula, if the
printed text means it and nests its operands as deeply as the parser allows. -/
theorem reread_same {text : String} {e : Expr Float} (parsed : parse text = .ok e)
    (legible : e.unfold.Legible) (nesting_le : e.unfold.nesting ≤ depthLimit) :
    ∃ e', parse e.display = .ok e' ∧ e'.same e = true := by
  obtain ⟨t, rfl, writable, depth_le⟩ := exists_term_of_parse parsed
  rw [Expr.display_eq]
  rw [t.unfold_store] at legible nesting_le ⊢
  refine ⟨_, parse_display writable legible nesting_le depth_le, ?_⟩
  -- A clip of the text is stored in another order than the operators it is printed as.
  rw [Expr.same_iff (Term.ordered_store _) t.ordered_store (Term.root_store_lt _) t.root_store_lt,
    Term.unfold_store, Term.unfold_store, Term.tree_ofTree]

/-- The formula `-(x_0 + 2)^2/sin(1e-3) <= f(C_1, -oo)`. -/
def signedQuotient : Expr Float :=
  ⟨#[.var 0, .const 2, .nary .add [0, 1], .const 2, .binary .pow 2 3, .unary .neg 4, .const 0.001,
    .unary .sin 6, .binary .div 5 7, .param 1, .symbol .negInf, .call "f" [9, 10],
    .relation .le 8 11], 12⟩

theorem signedQuotient_reread :
    parse "-(x_0 + 2)^2/sin(1e-3) <= f(C_1, -oo)" = .ok signedQuotient ∧
      signedQuotient.unfold.Legible ∧ signedQuotient.unfold.nesting ≤ depthLimit ∧
      ∃ e', parse signedQuotient.display = .ok e' ∧ e'.same signedQuotient = true := by
  have parsed : parse "-(x_0 + 2)^2/sin(1e-3) <= f(C_1, -oo)" = .ok signedQuotient := by
    decide +kernel
  have legible : signedQuotient.unfold.Legible := by decide +kernel
  have nesting_le : signedQuotient.unfold.nesting ≤ depthLimit := by decide +kernel
  exact ⟨parsed, legible, nesting_le, reread_same parsed legible nesting_le⟩

/-- The parentheses of a negated literal are not printed, so the sign is read into the literal. -/
theorem negatedLiteral_not_reread :
    ∃ e e', parse "-(2)" = .ok e ∧ parse e.display = .ok e' ∧ e'.same e = false :=
  ⟨⟨#[.const 2, .unary .neg 0], 1⟩, ⟨#[.const (-2)], 0⟩, by decide +kernel, by decide +kernel,
    by decide +kernel⟩

end Formula
end FormulaFit
