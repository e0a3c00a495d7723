import FormulaFit.Proofs.Formula.ReadBack
import FormulaFit.Proofs.Rewriting.Confinement

/-!
# Stored formulas are read back from their text

However a valid formula is stored, and whatever made it, its text is read as the same formula if its
nodes have a text that means them.  At half of the allowed depth its operands nest no deeper than
the parser allows.
-/

namespace FormulaFit
namespace Expr

/-- Every node below the root has a text that means it. -/
structure Printable (e : Expr Float) : Prop where
  isFinite : ∀ v, e.Reaches (.const v) → v.isFinite = true
  two_le : ∀ op args, e.Reaches (.nary op args) → 2 ≤ args.length
  isForeign : ∀ name args, e.Reaches (.call name args) → Formula.IsForeign name
  /-- A minus stands in front of nothing that it would be the sign of. -/
  separate : ∀ a, e.Reaches (.unary .neg a) →
    (∀ v, e.nodes[a]? = some (.const v) → Double.isNegative v = true) ∧
      e.nodes[a]? ≠ some (.symbol .posInf) ∧ ∀ args, e.nodes[a]? ≠ some (.call "oo" args)

variable {e : Expr Float}

theorem Valid.all_unfold (valid : e.Valid) {P : Node Float (Tree Float) → Prop}
    (each : ∀ n, e.Reaches n → P (n.map e.treeAt)) : e.unfold.All P := by
  have below {i : NodeId} (reachable : e.Reachable i) : (e.treeAt i).All P := by
    refine valid.reachable_induction (P := fun i => (e.treeAt i).All P) ?_ reachable
    intro i n reachable found ih
    rw [valid.treeAt_eq found]
    exact .mk (each n ⟨i, reachable, found⟩) (Node.forall_children_map.mpr ih)
  exact below .root

namespace Printable

theorem writable (printable : e.Printable) (valid : e.Valid) : e.unfold.Writable := by
  refine valid.all_unfold fun n reaches => ?_
  cases n with
  | nary op args =>
      simpa [Node.map, Node.IsWritable] using printable.two_le op args reaches
  | call name args => exact printable.isForeign name args reaches
  | _ => trivial

/-- The operand of a minus does not take it as its sign. -/
theorem not_takesSign (printable : e.Printable) (valid : e.Valid) {a : NodeId}
    (reaches : e.Reaches (.unary .neg a)) : (e.treeAt a).takesSign = false := by
  obtain ⟨negative, not_infinite, not_call⟩ := printable.separate a reaches
  obtain ⟨i, reachable, found⟩ := reaches
  obtain ⟨n, found'⟩ := valid.exists_node (.child reachable found List.mem_cons_self)
  rw [valid.treeAt_eq found']
  cases n with
  | const v => simp [Node.map, Tree.takesSign, negative v found']
  | symbol s =>
      have apart : s ≠ .posInf := fun same => not_infinite (same ▸ found')
      simpa [Node.map, Tree.takesSign] using apart
  | call name args =>
      have apart : name ≠ "oo" := fun same => not_call args (same ▸ found')
      simpa [Node.map, Tree.takesSign] using apart
  | _ => rfl

theorem legible (printable : e.Printable) (valid : e.Valid) : e.unfold.Legible := by
  refine valid.all_unfold fun n reaches => ?_
  cases n with
  | const v => exact printable.isFinite v reaches
  | unary op a =>
      cases op with
      | neg => simp [Node.map, Node.isLegible, printable.not_takesSign valid reaches]
      | _ => rfl
  | _ => rfl

end Printable

/-- A stored formula of half the allowed depth is read back from its text. -/
theorem display_reads_back (accepted : e.validate = .ok ()) (shallow : e.depth ≤ 100)
    (printable : e.Printable) :
    ∃ e', Formula.parse e.display = .ok e' ∧ e'.same e = true := by
  have valid := (validate_eq_ok_iff e).mp accepted
  rw [depth_eq valid.ordered valid.root_lt] at shallow
  have nesting_le : e.unfold.nesting ≤ depthLimit :=
    Nat.le_of_lt (e.unfold.nesting_lt_two_mul_depth.trans_le (Nat.mul_le_mul_left 2 shallow))
  have depth_le : e.unfold.depth ≤ depthLimit := shallow.trans (by decide)
  rw [display_eq]
  refine ⟨_, Formula.parse_display (printable.writable valid) (printable.legible valid)
    nesting_le depth_le, ?_⟩
  rw [same_iff (Term.ordered_store _) valid.ordered (Term.root_store_lt _) valid.root_lt,
    Term.unfold_store, Term.tree_ofTree]

/-- The formula `gamma(-(-2) + x_0 + -(-2), x_0)^-(-oo) < -(-2) + x_0 + -(-2)` with shared operands
and an overflowed literal out of reach. -/
def sharedPower : Expr Float :=
  ⟨#[.const (1 / 0), .const (-2), .unary .neg 1, .var 0, .nary .add [2, 3, 2],
    .call "gamma" [4, 3], .symbol .negInf, .unary .neg 6, .binary .pow 5 7,
    .relation .lt 8 4], 9⟩

theorem printable_sharedPower (valid : sharedPower.Valid) : sharedPower.Printable := by
  have all : ∀ n ∈ sharedPower.reachable, n ∈ sharedPower.nodes.toList.drop 1 := by
    decide +kernel
  have stored (n : Node Float NodeId) (reaches : sharedPower.Reaches n) :
      n ∈ sharedPower.nodes.toList.drop 1 := all n (valid.mem_reachable_iff.mpr reaches)
  have isForeign : Formula.IsForeign "gamma" :=
    ⟨isName_of_all rfl rfl rfl, rfl, rfl, by decide, by decide⟩
  refine ⟨fun v reaches => ?_, fun op args reaches => ?_, fun name args reaches => ?_,
    fun a reaches => ?_⟩
  · obtain rfl : v = -2 := by simpa [sharedPower] using stored _ reaches
    decide +kernel
  · obtain ⟨-, rfl⟩ : op = .add ∧ args = [2, 3, 2] := by simpa [sharedPower] using stored _ reaches
    decide
  · obtain ⟨rfl, -⟩ : name = "gamma" ∧ args = [4, 3] := by
      simpa [sharedPower] using stored _ reaches
    exact isForeign
  · obtain rfl | rfl : a = 1 ∨ a = 6 := by simpa [sharedPower] using stored _ reaches
    · have negative : Double.isNegative (-2) = true := by decide +kernel
      simp [sharedPower, negative]
    · simp [sharedPower]

theorem sharedPower_reads_back :
    sharedPower.validate = .ok () ∧ sharedPower.depth ≤ 100 ∧ sharedPower.Printable ∧
      ∃ e', Formula.parse sharedPower.display = .ok e' ∧ e'.same sharedPower = true := by
  have accepted : sharedPower.validate = .ok () := by decide +kernel
  have shallow : sharedPower.depth ≤ 100 := by decide +kernel
  have printable := printable_sharedPower ((validate_eq_ok_iff _).mp accepted)
  exact ⟨accepted, shallow, printable, display_reads_back accepted shallow printable⟩

end Expr
end FormulaFit
