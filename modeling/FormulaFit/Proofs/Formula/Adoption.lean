import FormulaFit.Proofs.Arena.TreeSize
import FormulaFit.Proofs.Formula.Forests

/-!
# Parsed formulas are stored as trees

Whatever the parser accepts is stored as a tree: the root is last, and every other node is an
operand of one node, once.  The forest that the parser grows has one root in the end, and as no
reader appends more nodes than it takes tokens, there are at most as many nodes as tokens.
-/

namespace FormulaFit

/-- What occurs once in the lists of some items occurs in the list of one item, once. -/
theorem exists_owner {β γ : Type} [DecidableEq γ] (owned : β → List γ) {items : List β} {c : γ}
    (once : (items.flatMap owned).count c = 1) :
    ∃ (p : Nat) (item : β), items[p]? = some item ∧ (owned item).count c = 1 ∧
      ∀ (q : Nat) (other : β), items[q]? = some other → c ∈ owned other → q = p := by
  induction items with
  | nil => cases once
  | cons item items ih =>
      rw [List.flatMap_cons, List.count_append] at once
      rcases Nat.eq_zero_or_pos ((owned item).count c) with absent | present
      · obtain ⟨p, owner, found, count_eq, unique⟩ := ih (by omega)
        refine ⟨p + 1, owner, found, count_eq, fun q other found' owns => ?_⟩
        cases q with
        | zero =>
            obtain rfl := Option.some.inj found'
            exact absurd owns (List.count_eq_zero.mp absent)
        | succ q => exact congrArg (· + 1) (unique q other found' owns)
      · refine ⟨0, item, rfl, by omega, fun q other found' owns => ?_⟩
        cases q with
        | zero => rfl
        | succ q =>
            have later : c ∈ items.flatMap owned :=
              List.mem_flatMap.mpr ⟨other, List.mem_of_getElem? found', owns⟩
            have counted := List.count_pos_iff.mpr later
            omega

/-- A stored formula is a tree: the root is last, children are stored before their parents, and
every node but the root is a child of one node, once. -/
structure Expr.IsTree {α : Type} (e : Expr α) : Prop where
  root_last : e.root + 1 = e.nodes.size
  child_lt : ∀ (i : NodeId) (n : Node α NodeId), e.nodes[i]? = some n → ∀ c ∈ n.children, c < i
  exists_parent : ∀ c < e.root, ∃ (p : NodeId) (n : Node α NodeId), e.nodes[p]? = some n ∧
    n.children.count c = 1 ∧
    ∀ (q : NodeId) (m : Node α NodeId), e.nodes[q]? = some m → c ∈ m.children → q = p
  reachable : ∀ i < e.nodes.size, e.Reachable i

theorem Expr.IsCompact.isTree {α : Type} {e : Expr α} (compact : e.IsCompact) (valid : e.Valid) :
    e.IsTree where
  root_last := compact.root_last
  child_lt _ _ found := valid.child_lt found
  exists_parent c c_lt := by
    obtain ⟨p, n, found, count_eq, unique⟩ :=
      exists_owner Node.children (compact.uses_eq_one c c_lt)
    simp only [Array.getElem?_toList] at found unique
    exact ⟨p, n, found, count_eq, unique⟩
  reachable _ i_lt := compact.reachable valid i_lt

namespace Formula

/-- An accepted text is stored as a valid tree with at most as many nodes as the text has tokens. -/
theorem parse_isTree {text : String} {e : Expr Float} (parsed : parse text = .ok e) :
    e.validate = .ok () ∧ e.IsTree ∧
      ∃ ls, Lexeme.ofText? text = .ok ls ∧ e.nodes.size ≤ ls.length := by
  obtain ⟨ls, cut_eq, read⟩ := bind_eq_ok_iff.mp parsed
  obtain ⟨compact, valid, size_le⟩ := Parser.isCompact_of_ofLexemes? read
  exact ⟨(Expr.validate_eq_ok_iff e).mpr valid, compact.isTree valid, ls, cut_eq, size_le⟩

/-- The formula `clip(x_0, -oo, max(2)) - f()`. -/
def clippedDifference : Expr Float :=
  ⟨#[.var 0, .symbol .negInf, .const 2, .nary .max [0, 1], .nary .min [3, 2], .call "f" [],
    .binary .sub 4 5], 6⟩

theorem clippedDifference_isTree :
    parse "clip(x_0, -oo, max(2)) - f()" = .ok clippedDifference ∧ clippedDifference.IsTree ∧
      ∃ ls, Lexeme.ofText? "clip(x_0, -oo, max(2)) - f()" = .ok ls ∧
        clippedDifference.nodes.size ≤ ls.length := by
  have parsed : parse "clip(x_0, -oo, max(2)) - f()" = .ok clippedDifference := by decide +kernel
  exact ⟨parsed, (parse_isTree parsed).2⟩

end Formula

end FormulaFit
