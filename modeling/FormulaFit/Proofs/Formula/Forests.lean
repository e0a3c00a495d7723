import FormulaFit.Formula.Parser
import FormulaFit.Proofs.Arena.Compactness
import FormulaFit.Proofs.Formula.TermReaders
import FormulaFit.Proofs.Program.Slots

/-!
# The forest that a parser grows

The nodes that the parser has appended so far form a forest: each of them is a child once, except
for the roots of what nothing has taken up yet.  A reader leaves the roots before it alone and adds
one for what it reads, or one for each argument of a call; a node that is appended takes up the last
roots and becomes a root itself.  No reader appends more nodes than it takes lexemes.
-/

namespace FormulaFit
namespace Parser

open Formula (unexpected unaryFunction? naryFunction? atom? negativeLiteral?)

variable {γ δ : Type} {arena grown : Arena Float} {roots chain : List NodeId} {i : NodeId}

/-- Children are stored before their parents, no operator is without operands, and every node is a
child once, unless it is one of the roots. -/
structure Forest (arena : Arena Float) (roots : List NodeId) : Prop where
  ordered : arena.Ordered
  operands_ne_nil : ∀ (i : NodeId) (op : NaryOp), arena[i]? ≠ some (.nary op [])
  adopted : ∀ i, arena.uses i + roots.count i = arena.holds i

theorem forest_empty : Forest #[] [] where
  ordered i n found := by simp at found
  operands_ne_nil i op found := by simp at found
  adopted _ := rfl

theorem Forest.root_lt (forest : Forest arena roots) (member : i ∈ roots) : i < arena.size := by
  have counted := List.count_pos_iff.mpr member
  have held : arena.holds i ≠ 0 := by
    rw [← forest.adopted i]
    omega
  exact Decidable.of_not_not fun outside => held (if_neg outside)

theorem Forest.perm {roots' : List NodeId} (forest : Forest arena roots)
    (perm : roots.Perm roots') : Forest arena roots' where
  ordered := forest.ordered
  operands_ne_nil := forest.operands_ne_nil
  adopted i := perm.count_eq i ▸ forest.adopted i

/-- An appended node takes up the last roots and becomes a root itself. -/
theorem Forest.push {n : Node Float NodeId} (pushed : Parser.push n arena = .ok (i, grown))
    (forest : Forest arena (roots ++ n.children)) (occupied : ∀ op, n ≠ .nary op []) :
    Forest grown (roots ++ [i]) ∧ grown.size = arena.size + 1 := by
  cases pushed
  refine ⟨⟨fun i m found c is_child => ?_, fun i op found => ?_, fun i => ?_⟩, Array.size_push _⟩
  · change (Array.push arena n)[i]? = some m at found
    rw [Array.getElem?_push] at found
    split at found
    · subst i
      obtain rfl := Option.some.inj found
      exact forest.root_lt (List.mem_append_right roots is_child)
    · exact forest.ordered i m found c is_child
  · change (Array.push arena n)[i]? = some (.nary op []) at found
    rw [Array.getElem?_push] at found
    split at found
    · exact occupied op (Option.some.inj found)
    · exact forest.operands_ne_nil i op found
  · have adopted := forest.adopted i
    change Arena.uses (Array.push arena n) i + _ = Arena.holds (Array.push arena n) i
    rw [List.count_append] at adopted ⊢
    rw [Arena.uses_push, Arena.holds_push]
    change _ + (roots.count i + [arena.size].count i) = _
    omega

theorem Forest.push_leaf {n : Node Float NodeId} (pushed : Parser.push n arena = .ok (i, grown))
    (forest : Forest arena roots) (leaf : n.isLeaf = true) :
    Forest grown (roots ++ [i]) ∧ grown.size = arena.size + 1 := by
  have childless : n.children = [] := by
    cases n with
    | const | var | param | symbol => rfl
    | _ => cases leaf
  refine Forest.push pushed (by rwa [childless, List.append_nil]) fun op same => ?_
  subst same
  cases leaf

theorem bind_run_eq_ok_iff {first : Builder γ} {next : γ → Builder δ} {found : δ × Arena Float} :
    (first >>= next) arena = .ok found ↔
      ∃ c middle, first arena = .ok (c, middle) ∧ next c middle = .ok found := by
  have run : (first >>= next) arena = first arena >>= fun (c, middle) => next c middle := rfl
  rw [run, bind_eq_ok_iff, Prod.exists]

/-- What is read becomes the last tree of the forest and has at most as many nodes as it takes
lexemes. -/
def AddsTree (reader : Reader NodeId) : Prop :=
  ∀ {ls : List Lexeme} {arena : Arena Float} {roots : List NodeId} {i : NodeId}
    {rest : List Lexeme} {grown : Arena Float}, Forest arena roots →
    reader ls arena = .ok ((i, rest), grown) →
    Forest grown (roots ++ [i]) ∧ grown.size + rest.length ≤ arena.size + ls.length

/-- Trees are put under an operator, of which there is none for a single tree. -/
theorem forest_close {op : NaryOp} (nonempty : chain ≠ []) (forest : Forest arena (roots ++ chain))
    (closed : close op chain arena = .ok (i, grown)) :
    Forest grown (roots ++ [i]) ∧ grown.size ≤ arena.size + 1 ∧
      grown.size + 1 ≤ arena.size + chain.length := by
  match chain with
  | [] => exact absurd rfl nonempty
  | [t] =>
      cases closed
      exact ⟨forest, Nat.le_succ _, Nat.le_refl _⟩
  | t :: u :: chain =>
      obtain ⟨forest, size_eq⟩ := forest.push closed nofun
      rw [List.length_cons, List.length_cons]
      exact ⟨forest, Nat.le_of_eq size_eq, by omega⟩

/-- One turn of a loop puts the chain under the operator and ends, takes one more tree into the
chain, or joins what the chain amounts to with one more tree. -/
def Joins (item : Reader NodeId) (op : NaryOp) (inverse : BinaryOp)
    (tail : Nat → List NodeId → Reader NodeId) : Prop :=
  ∀ bound chain ls,
    tail bound chain ls = (do return (← close op chain, ls)) ∨
    ∃ less l after, bound = less + 1 ∧ ls = l :: after ∧
      (tail bound chain ls = (do
        let (i, rest) ← item after
        tail less (chain ++ [i]) rest) ∨
      tail bound chain ls = (do
        let first ← close op chain
        let (second, rest) ← item after
        let joined ← push (.binary inverse first second)
        tail less [joined] rest))

section Readers

variable {reader : Reader NodeId} {ls rest : List Lexeme}

/-- A loop leaves one tree for the chain before it and all that it takes. -/
theorem Joins.addsTree {op : NaryOp} {inverse : BinaryOp} {tail : Nat → List NodeId → Reader NodeId}
    (joins : Joins reader op inverse tail) (adds : AddsTree reader) {bound : Nat}
    (nonempty : chain ≠ []) (forest : Forest arena (roots ++ chain))
    (read : tail bound chain ls arena = .ok ((i, rest), grown)) :
    Forest grown (roots ++ [i]) ∧
      grown.size + rest.length + 1 ≤ arena.size + ls.length + chain.length := by
  -- Every turn but the last one lowers the bound.
  induction bound using Nat.strongRecOn generalizing chain ls arena with
  | ind bound ih =>
      obtain ends | ⟨less, l, after, rfl, rfl, longer | splits⟩ := joins bound chain ls
      · rw [ends] at read
        obtain ⟨_, _, closed, result⟩ := bind_run_eq_ok_iff.mp read
        cases result
        obtain ⟨forest, -, size_le⟩ := forest_close nonempty forest closed
        exact ⟨forest, by omega⟩
      · rw [longer] at read
        obtain ⟨⟨t, left⟩, _, item, read⟩ := bind_run_eq_ok_iff.mp read
        obtain ⟨forest, size_le⟩ := adds forest item
        rw [List.append_assoc] at forest
        obtain ⟨forest, size_le'⟩ := ih less (Nat.lt_succ_self less) (by simp) forest read
        refine ⟨forest, ?_⟩
        rw [List.length_append, List.length_singleton] at size_le'
        rw [List.length_cons]
        omega
      · rw [splits] at read
        obtain ⟨first, _, closed, read⟩ := bind_run_eq_ok_iff.mp read
        obtain ⟨⟨second, left⟩, _, item, read⟩ := bind_run_eq_ok_iff.mp read
        obtain ⟨forest, -, size_le⟩ := forest_close nonempty forest closed
        obtain ⟨forest, size_le'⟩ := adds forest item
        rw [List.append_assoc] at forest
        obtain ⟨joined, _, pushed, read⟩ := bind_run_eq_ok_iff.mp read
        obtain ⟨forest, size_eq⟩ := forest.push pushed nofun
        obtain ⟨forest, size_le''⟩ := ih less (Nat.lt_succ_self less) (by simp) forest read
        refine ⟨forest, ?_⟩
        rw [List.length_singleton] at size_le''
        rw [List.length_cons]
        omega

theorem Joins.addsTree_chain {op : NaryOp} {inverse : BinaryOp}
    {tail : Nat → List NodeId → Reader NodeId} (joins : Joins reader op inverse tail)
    (adds : AddsTree reader) : AddsTree (fun ls => do
      let (first, rest) ← reader ls
      tail rest.length [first] rest) := by
  intro ls arena roots i rest grown forest read
  obtain ⟨⟨first, left⟩, _, item, read⟩ := bind_run_eq_ok_iff.mp read
  obtain ⟨forest, size_le⟩ := adds forest item
  obtain ⟨forest, size_le'⟩ := joins.addsTree adds (by simp) forest read
  rw [List.length_singleton] at size_le'
  exact ⟨forest, by omega⟩

theorem joins_productTail (factor : Reader NodeId) :
    Joins factor .mul .div (productTail factor) := by
  intro bound chain ls
  fun_cases productTail factor bound chain ls
  · exact .inr ⟨_, _, _, rfl, rfl, .inl rfl⟩
  · exact .inr ⟨_, _, _, rfl, rfl, .inr rfl⟩
  · exact .inl rfl

theorem joins_sumTail (summand : Reader NodeId) : Joins summand .add .sub (sumTail summand) := by
  intro bound chain ls
  fun_cases sumTail summand bound chain ls
  · exact .inr ⟨_, _, _, rfl, rfl, .inl rfl⟩
  · exact .inr ⟨_, _, _, rfl, rfl, .inr rfl⟩
  · exact .inl rfl

/-- One more tree is read and put under an operator behind the last one. -/
theorem AddsTree.joined (adds : AddsTree reader) (join : NodeId → NodeId → Node Float NodeId)
    (children_eq : ∀ j k, (join j k).children = [j, k]) {first : NodeId}
    (forest : Forest arena (roots ++ [first]))
    (read : (reader ls >>= fun p => push (join first p.1) >>= fun k => pure (k, p.2)) arena =
      .ok ((i, rest), grown)) :
    Forest grown (roots ++ [i]) ∧ grown.size + rest.length ≤ arena.size + ls.length + 1 := by
  obtain ⟨⟨second, left⟩, middle, item, read⟩ := bind_run_eq_ok_iff.mp read
  obtain ⟨forest, size_le⟩ := adds forest item
  obtain ⟨_, _, pushed, result⟩ := bind_run_eq_ok_iff.mp read
  cases result
  have operands : Forest middle (roots ++ (join first second).children) := by
    rwa [children_eq, List.append_cons]
  obtain ⟨forest, size_eq⟩ := operands.push pushed fun op same => by
    have childless := children_eq first second
    rw [same] at childless
    cases childless
  dsimp only
  exact ⟨forest, by omega⟩

theorem addsTree_comparison (adds : AddsTree reader) : AddsTree (comparison reader) := by
  intro ls arena roots i rest grown forest read
  obtain ⟨⟨left, others⟩, _, side, read⟩ := bind_run_eq_ok_iff.mp read
  obtain ⟨forest, size_le⟩ := adds forest side
  dsimp only at read
  split at read
  · obtain ⟨forest, size_le'⟩ := adds.joined (.relation _) (fun _ _ => rfl) forest read
    rw [List.length_cons] at size_le
    exact ⟨forest, by omega⟩
  · cases read
    exact ⟨forest, size_le⟩

theorem addsTree_formula (adds : AddsTree reader) : AddsTree (formula reader) :=
  addsTree_comparison ((joins_sumTail _).addsTree_chain
    ((joins_productTail reader).addsTree_chain adds))

theorem forest_argumentsTail (adds : AddsTree reader) {bound : Nat} {args chain : List NodeId}
    (forest : Forest arena (roots ++ chain))
    (read : argumentsTail reader bound chain ls arena = .ok ((args, rest), grown)) :
    Forest grown (roots ++ args) ∧ grown.size + rest.length + 1 ≤ arena.size + ls.length := by
  induction bound using Nat.strongRecOn generalizing chain ls arena with
  | ind bound ih =>
      unfold argumentsTail at read
      split at read
      · cases read
        exact ⟨forest, Nat.le_refl _⟩
      · obtain ⟨⟨t, left⟩, _, argument, read⟩ := bind_run_eq_ok_iff.mp read
        obtain ⟨forest, size_le⟩ := adds forest argument
        rw [List.append_assoc] at forest
        obtain ⟨forest, size_le'⟩ := ih _ (Nat.lt_succ_self _) forest read
        rw [List.length_cons]
        exact ⟨forest, by omega⟩
      · cases read
      · cases read

theorem forest_arguments (adds : AddsTree reader) {args : List NodeId}
    (forest : Forest arena roots) (read : arguments reader ls arena = .ok ((args, rest), grown)) :
    Forest grown (roots ++ args) ∧ grown.size + rest.length + 1 ≤ arena.size + ls.length := by
  unfold arguments at read
  split at read
  · cases read
    exact ⟨by rwa [List.append_nil], Nat.le_refl _⟩
  · obtain ⟨⟨t, left⟩, _, argument, read⟩ := bind_run_eq_ok_iff.mp read
    obtain ⟨forest, size_le⟩ := adds forest argument
    obtain ⟨forest, size_le'⟩ := forest_argumentsTail adds forest read
    exact ⟨forest, by omega⟩

/-- A call puts its arguments under at most two operators. -/
theorem forest_call {name : String} {args : List NodeId} (forest : Forest arena (roots ++ args))
    (called : call name args arena = .ok (i, grown)) :
    Forest grown (roots ++ [i]) ∧ grown.size ≤ arena.size + 2 := by
  unfold call at called
  cases unary : unaryFunction? name with
  | some op =>
      rw [unary] at called
      match args with
      | [a] =>
          obtain ⟨forest, size_eq⟩ := forest.push called nofun
          exact ⟨forest, by omega⟩
      | [] | _ :: _ :: _ => cases called
  | none =>
      rw [unary] at called
      cases nary : naryFunction? name with
      | some op =>
          rw [nary] at called
          match args with
          | [] => cases called
          | a :: args =>
              obtain ⟨forest, size_le, -⟩ := forest_close (List.cons_ne_nil a args) forest called
              exact ⟨forest, Nat.le_succ_of_le size_le⟩
      | none =>
          rw [nary] at called
          dsimp only at called
          split_ifs at called
          · match args with
            | [value, low, high] =>
                obtain ⟨floor, _, pushed, called⟩ := bind_run_eq_ok_iff.mp called
                -- The third argument lies between the other two and the operator over them.
                have apart : (roots ++ [value, low, high]).Perm (roots ++ [high] ++ [value, low]) := by
                  rw [List.append_assoc]
                  exact List.Perm.append_left roots (@List.perm_append_comm _ [value, low] [high])
                obtain ⟨forest, size_eq⟩ := (forest.perm apart).push pushed nofun
                have together : (roots ++ [high] ++ [floor]).Perm (roots ++ [floor, high]) := by
                  rw [List.append_assoc]
                  exact List.Perm.append_left roots (List.Perm.swap floor high [])
                obtain ⟨forest, size_eq'⟩ := (forest.perm together).push called nofun
                exact ⟨forest, by omega⟩
            | [] | [_] | [_, _] | _ :: _ :: _ :: _ :: _ => cases called
          · match args with
            | [low, high] =>
                obtain ⟨forest, size_eq⟩ := forest.push called nofun
                exact ⟨forest, by omega⟩
            | [] | [_] | _ :: _ :: _ :: _ => cases called
          · obtain ⟨forest, size_eq⟩ := forest.push called nofun
            exact ⟨forest, by omega⟩

theorem addsTree_primary (adds : AddsTree reader) : AddsTree (primary reader) := by
  intro ls arena roots i rest grown forest read
  unfold primary at read
  split at read
  · cases read
  · obtain ⟨_, _, pushed, result⟩ := bind_run_eq_ok_iff.mp read
    cases result
    obtain ⟨forest, size_eq⟩ := forest.push_leaf pushed rfl
    rw [List.length_cons]
    exact ⟨forest, by omega⟩
  · obtain ⟨⟨t, left⟩, _, inner, closes⟩ := bind_run_eq_ok_iff.mp read
    obtain ⟨forest, size_le⟩ := addsTree_formula adds forest inner
    dsimp only at closes
    split at closes
    · cases closes
      rw [List.length_cons] at size_le ⊢
      exact ⟨forest, by omega⟩
    · cases closes
    · cases closes
  · obtain ⟨⟨args, left⟩, _, inner, read⟩ := bind_run_eq_ok_iff.mp read
    obtain ⟨forest, size_le⟩ := forest_arguments (addsTree_formula adds) forest inner
    obtain ⟨_, _, called, result⟩ := bind_run_eq_ok_iff.mp read
    cases result
    obtain ⟨forest, size_le'⟩ := forest_call forest called
    rw [List.length_cons, List.length_cons]
    exact ⟨forest, by omega⟩
  · rename_i name _ _ _ _
    obtain ⟨_, _, named, result⟩ := bind_run_eq_ok_iff.mp read
    cases result
    unfold atom at named
    cases found : (atom? name : Option (Node Float NodeId)) with
    | none =>
        rw [found] at named
        cases named
    | some n =>
        rw [found] at named
        obtain ⟨forest, size_eq⟩ := forest.push_leaf named (Formula.isLeaf_of_atom? found)
        rw [List.length_cons]
        exact ⟨forest, by omega⟩
  · cases read

theorem addsTree_power (adds : AddsTree reader) : AddsTree (power reader) := by
  intro ls arena roots i rest grown forest read
  obtain ⟨⟨base, left⟩, _, primary_eq, read⟩ := bind_run_eq_ok_iff.mp read
  obtain ⟨forest, size_le⟩ := addsTree_primary adds forest primary_eq
  dsimp only at read
  split at read
  · obtain ⟨forest, size_le'⟩ := adds.joined (.binary .pow) (fun _ _ => rfl) forest read
    rw [List.length_cons] at size_le
    exact ⟨forest, by omega⟩
  · cases read
    exact ⟨forest, size_le⟩

theorem addsTree_signed (adds : AddsTree reader) : AddsTree (signed reader) := by
  intro ls arena roots i rest grown forest read
  unfold signed at read
  split at read
  · obtain ⟨forest, size_le⟩ := adds forest read
    exact ⟨forest, Nat.le_succ_of_le size_le⟩
  · rename_i after
    cases found : (negativeLiteral? after : Option (Node Float NodeId × List Lexeme)) with
    | some literal =>
        rw [found] at read
        obtain ⟨_, _, pushed, result⟩ := bind_run_eq_ok_iff.mp read
        cases result
        obtain ⟨leaf, l, rfl⟩ := Formula.negativeLiteral?_isLeaf found
        obtain ⟨forest, size_eq⟩ := forest.push_leaf pushed leaf
        rw [List.length_cons, List.length_cons]
        exact ⟨forest, by omega⟩
    | none =>
        rw [found] at read
        obtain ⟨⟨t, left⟩, _, operand_eq, read⟩ := bind_run_eq_ok_iff.mp read
        obtain ⟨forest, size_le⟩ := adds forest operand_eq
        obtain ⟨_, _, pushed, result⟩ := bind_run_eq_ok_iff.mp read
        cases result
        obtain ⟨forest, size_eq⟩ := forest.push pushed nofun
        rw [List.length_cons]
        exact ⟨forest, by omega⟩
  · exact addsTree_power adds forest read

end Readers

theorem addsTree_operand (level : Nat) : AddsTree (operand level) := by
  induction level with
  | zero => exact fun _ read => nomatch read
  | succ level ih => exact addsTree_signed ih

/-- The last node has no parent, so it is the root of a forest of one tree. -/
theorem Forest.isCompact (forest : Forest arena [i]) : (⟨arena, i⟩ : Expr Float).IsCompact := by
  have i_lt := forest.root_lt (List.mem_singleton_self i)
  obtain ⟨last, size_eq⟩ := Nat.exists_eq_succ_of_ne_zero (Nat.ne_zero_of_lt i_lt)
  have last_lt : last < arena.size := size_eq ▸ Nat.lt_succ_self last
  have orphan : arena.uses last = 0 := by
    refine List.count_eq_zero.mpr fun used => ?_
    obtain ⟨n, member, is_child⟩ := List.mem_flatMap.mp used
    obtain ⟨j, found⟩ := Array.getElem?_of_mem (Array.mem_toList_iff.mp member)
    have later : last < j := forest.ordered j n found last is_child
    have j_lt : j < arena.size := (Array.getElem?_eq_some_iff.mp found).1
    rw [size_eq] at j_lt
    exact absurd later (Nat.not_lt.mpr (Nat.le_of_lt_succ j_lt))
  have counted : [i].count last = 1 := by
    have adopted := forest.adopted last
    rwa [orphan, Arena.holds, if_pos last_lt, Nat.zero_add] at adopted
  obtain rfl := List.mem_singleton.mp (List.count_pos_iff.mp (counted.symm ▸ Nat.one_pos))
  refine ⟨size_eq.symm, fun c c_lt => ?_⟩
  have other : [last].count c = 0 :=
    List.count_eq_zero.mpr (mt List.mem_singleton.mp (Nat.ne_of_lt c_lt))
  have adopted := forest.adopted c
  rw [other, Arena.holds, if_pos (Nat.lt_trans c_lt i_lt)] at adopted
  exact adopted

/-- Whatever lexemes are accepted, one tree is left, which is valid and has at most as many nodes as
there are lexemes. -/
theorem isCompact_of_ofLexemes? {ls : List Lexeme} {e : Expr Float}
    (read : ofLexemes? ls = .ok e) : e.IsCompact ∧ e.Valid ∧ e.nodes.size ≤ ls.length := by
  obtain ⟨⟨⟨root, rest⟩, nodes⟩, formula_eq, read⟩ := bind_eq_ok_iff.mp read
  obtain ⟨forest, size_le⟩ := addsTree_formula (addsTree_operand depthLimit) forest_empty formula_eq
  dsimp only at read
  split at read
  · cases read
  · split at read
    · cases read
    · rename_i shallow
      cases read
      have root_lt := forest.root_lt (List.mem_singleton_self root)
      refine ⟨forest.isCompact, ⟨root_lt, ?_, ?_, Nat.le_of_not_lt shallow⟩, by simpa using size_le⟩
      · exact fun found => forest.ordered _ _ found
      · exact fun found none => forest.operands_ne_nil _ _ (none ▸ found)

end Parser
end FormulaFit
