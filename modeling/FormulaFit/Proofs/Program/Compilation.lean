import FormulaFit.Program.Compile
import FormulaFit.Proofs.Program.Slots

/-!
# Compilation preserves values

The sweep over a valid arena marks exactly what is reachable from the root, and compilation gives
the marked nodes consecutive slots in index order.  Hence a formula compiles if and only if nothing
foreign is reachable, and its program gives every row the value of the tree that the root stands
for, which is the value of the last slot.
-/

namespace FormulaFit

namespace Node

variable {α β γ : Type}

/-- The node is outside what can be compiled for data of a width. -/
def isForeign [Scalar α] (featureCount : Nat) : Node α β → Bool
  | const v => !Scalar.isFinite v
  | var i => featureCount ≤ i.toNat
  | symbol _ | relation .. | bounds .. | call .. => true
  | param _ | unary .. | binary .. | nary .. => false

/-- The value of a node over the values of its children at a row of data; none if the node or some
child has no value. -/
def value? [Scalar α] (placeholder : α) (row params : Array α) : Node α (Option α) → Option α
  | const v => some v
  | var i => row[i.toNat]?
  | param i => params[i.toNat]?
  | unary op a => do return op.apply (← a)
  | binary .div a b => do
    let a ← a
    let b ← b
    return if Scalar.eq b 0 then placeholder else a / b
  | binary op a b => do return op.apply (← a) (← b)
  | nary op args => do return op.fold (← args.mapM id)
  | symbol _ | relation .. | bounds .. | call .. => none

end Node

/-- The value of a formula at a row of data, by recursion over the tree. -/
def Tree.value? {α : Type} [Scalar α] (placeholder : α) (row params : Array α) :
    Tree α → Option α :=
  Tree.fold (Node.value? placeholder row params)

theorem Tree.value?_mk {α : Type} [Scalar α] (placeholder : α) (row params : Array α)
    (n : Node α (Tree α)) :
    (Tree.mk n).value? placeholder row params =
      (n.map (Tree.value? placeholder row params)).value? placeholder row params :=
  Tree.fold_mk _ n

namespace Instr

variable {α β γ : Type} [Scalar α]

/-- A node becomes an instruction unless it is foreign. -/
theorem exists_ofNode?_iff {featureCount : Nat} {n : Node α β} :
    (∃ instr, ofNode? featureCount n = .ok instr) ↔ n.isForeign featureCount = false := by
  cases n with
  | const v => cases finite : Scalar.isFinite v <;> simp [ofNode?, Node.isForeign, finite]
  | var i =>
      by_cases within : i.toNat < featureCount
      · simp [ofNode?, Node.isForeign, within]
      · simp [ofNode?, Node.isForeign, within, Nat.not_lt.mp within]
  | _ => simp [ofNode?, Node.isForeign]

theorem operands_of_ofNode? {featureCount : Nat} {n : Node α β} {instr : Instr α β}
    (lowered : ofNode? featureCount n = .ok instr) : instr.operands = n.children := by
  cases n <;> simp only [ofNode?] at lowered <;> (try split at lowered) <;> cases lowered <;> rfl

theorem var_of_ofNode? {featureCount : Nat} {n : Node α β} {i : Nat}
    (lowered : ofNode? featureCount n = .ok (.var i)) : i < featureCount := by
  cases n <;> simp only [ofNode?] at lowered <;> (try split at lowered) <;> cases lowered
  assumption

theorem exists_var_of_ofNode? {featureCount : Nat} {n : Node α β} {i : Nat}
    (lowered : ofNode? featureCount n = .ok (.var i)) : ∃ j, n = .var j ∧ i = j.toNat := by
  cases n <;> simp only [ofNode?] at lowered <;> (try split at lowered) <;> cases lowered
  exact ⟨_, rfl, rfl⟩

theorem param_of_ofNode? {featureCount : Nat} {n : Node α β} {i : Nat}
    (lowered : ofNode? featureCount n = .ok (.param i)) : ∃ j, n = .param j ∧ i = j.toNat := by
  cases n <;> simp only [ofNode?] at lowered <;> (try split at lowered) <;> cases lowered
  exact ⟨_, rfl, rfl⟩

theorem ofNode?_congr {n : Node α β} {width width' : Nat}
    (inside : ∀ i, n = .var i → i.toNat < width ∧ i.toNat < width') :
    ofNode? width n = ofNode? width' n := by
  cases n with
  | var i => rw [ofNode?, ofNode?, if_pos (inside i rfl).1, if_pos (inside i rfl).2]
  | _ => rfl

theorem isForeign_map {featureCount : Nat} (f : β → γ) (n : Node α β) :
    (n.map f).isForeign featureCount = n.isForeign featureCount := by
  cases n <;> rfl

theorem ofNode?_map {featureCount : Nat} {n : Node α β} {instr : Instr α β}
    (lowered : ofNode? featureCount n = .ok instr) (f : β → γ) :
    ofNode? featureCount (n.map f) = .ok (instr.map f) := by
  cases n <;> simp only [ofNode?] at lowered <;> (try split at lowered) <;> cases lowered <;>
    simp_all [Node.map, ofNode?, map]

theorem value?_of_ofNode? {featureCount : Nat} {n : Node α α} {instr : Instr α α}
    (lowered : ofNode? featureCount n = .ok instr) (placeholder : α) {row params : Array α}
    (column : ∀ i, instr = .var i → i < row.size)
    (coefficient : ∀ i, instr = .param i → i < params.size) :
    (n.map some).value? placeholder row params = some (instr.result placeholder row params) := by
  cases n with
  | const v =>
      simp only [ofNode?] at lowered
      split at lowered <;> cases lowered
      rfl
  | var i =>
      simp only [ofNode?] at lowered
      split at lowered <;> cases lowered
      simp [Node.map, Node.value?, result, Array.getD_eq_getD_getElem?, column _ rfl]
  | param i =>
      cases lowered
      simp [Node.map, Node.value?, result, Array.getD_eq_getD_getElem?, coefficient _ rfl]
  | unary op a =>
      cases lowered
      rfl
  | binary op a b =>
      cases lowered
      cases op <;> rfl
  | nary op args =>
      cases lowered
      have values : (args.map some).mapM id = some args := by
        induction args with
        | nil => rfl
        | cons a args ih => simp_all
      simp only [Node.map, Node.value?, values, result]
      rfl
  | _ => cases lowered

end Instr

/-- What every step of a sweep from the last index to the first keeps holds at its end. -/
theorem foldr_range_invariant {σ : Type} {step : Nat → σ → σ} (P : Nat → σ → Prop) (n : Nat)
    {start : σ} (initially : P n start) (keeps : ∀ k s, k < n → P (k + 1) s → P k (step k s)) :
    P 0 ((List.range n).foldr step start) := by
  induction n generalizing start with
  | zero => exact initially
  | succ n ih =>
      rw [List.range_succ, List.foldr_append]
      exact ih (keeps n start (Nat.lt_succ_self n) initially)
        fun k s k_lt => keeps k s (Nat.lt_succ_of_lt k_lt)

namespace Expr

variable {α : Type}

private theorem getD_setIfInBounds_true (marks : Array Bool) (c i : Nat) :
    (marks.setIfInBounds c true).getD i false = true ↔
      marks.getD i false = true ∨ i = c ∧ i < marks.size := by
  simp only [Array.getD_eq_getD_getElem?, Array.getElem?_setIfInBounds]
  by_cases same : c = i
  · subst same
    by_cases stored : c < marks.size <;> simp [stored]
  · simp [same, Ne.symm same]

private theorem getD_markAll (cs : List NodeId) (marks : Array Bool) (i : Nat) :
    (cs.foldl (fun marks c => marks.setIfInBounds c true) marks).getD i false = true ↔
      marks.getD i false = true ∨ i ∈ cs ∧ i < marks.size := by
  induction cs generalizing marks with
  | nil => simp
  | cons c cs ih =>
      rw [List.foldl_cons, ih, getD_setIfInBounds_true, Array.size_setIfInBounds, List.mem_cons]
      tauto

private theorem size_markAll (cs : List NodeId) (marks : Array Bool) :
    (cs.foldl (fun marks c => marks.setIfInBounds c true) marks).size = marks.size := by
  induction cs generalizing marks with
  | nil => rfl
  | cons c cs ih => rw [List.foldl_cons, ih, Array.size_setIfInBounds]

/-- The sweep has passed all indices from one on: only reachable nodes are marked, the root is, and
so are the children of marked nodes that were passed. -/
structure Swept (e : Expr α) (k : Nat) (marks : Array Bool) : Prop where
  /-- Every node has a mark or none. -/
  size_eq : marks.size = e.nodes.size
  /-- Marks are sound. -/
  sound : ∀ i, marks.getD i false = true → e.Reachable i
  /-- The root is marked. -/
  root : marks.getD e.root false = true
  /-- Marks are closed above the sweep. -/
  closed : ∀ i n, k ≤ i → marks.getD i false = true → e.nodes[i]? = some n →
    ∀ c ∈ n.children, marks.getD c false = true

theorem Swept.step {e : Expr α} (valid : e.Valid) {k : Nat} {marks : Array Bool}
    (swept : e.Swept (k + 1) marks) :
    e.Swept k (match marks.getD k false, e.nodes[k]? with
      | true, some n => n.children.foldl (fun marks c => marks.setIfInBounds c true) marks
      | _, _ => marks) := by
  split
  · rename_i n marked found
    have child_lt := valid.child_lt found
    have k_lt : k < marks.size := swept.size_eq ▸ (Array.getElem?_eq_some_iff.mp found).1
    refine ⟨by rw [size_markAll, swept.size_eq], fun i now => ?_, ?_, fun i m k_le now at_i => ?_⟩
    · rcases (getD_markAll _ _ _).mp now with before | ⟨member, -⟩
      · exact swept.sound i before
      · exact .child (swept.sound k marked) found member
    · exact (getD_markAll _ _ _).mpr (.inl swept.root)
    · -- What is marked now lies below the index, so a passed node was marked before.
      have before : marks.getD i false = true := by
        rcases (getD_markAll _ _ _).mp now with before | ⟨member, -⟩
        · exact before
        · exact absurd k_le (Nat.not_le.mpr (child_lt i member))
      intro c member
      rcases Nat.eq_or_lt_of_le k_le with rfl | k_lt_i
      · obtain rfl : n = m := by simpa [found] using at_i
        exact (getD_markAll _ _ _).mpr (.inr ⟨member, Nat.lt_trans (child_lt c member) k_lt⟩)
      · exact (getD_markAll _ _ _).mpr (.inl (swept.closed i m k_lt_i before at_i c member))
  · rename_i unmarked
    refine ⟨swept.size_eq, swept.sound, swept.root, fun i n k_le marked found => ?_⟩
    rcases Nat.eq_or_lt_of_le k_le with rfl | k_lt
    · exact absurd found (unmarked n marked)
    · exact swept.closed i n k_lt marked found

theorem Valid.swept {e : Expr α} (valid : e.Valid) : e.Swept 0 e.marks := by
  refine foldr_range_invariant e.Swept e.nodes.size ?_ fun k marks _ swept => swept.step valid
  refine ⟨by simp, fun i marked => ?_, ?_, fun i n size_le _ found => ?_⟩
  · rcases (getD_setIfInBounds_true _ _ _).mp marked with never | ⟨rfl, -⟩
    · simp [Array.getD_eq_getD_getElem?, Array.getElem?_replicate] at never
      split at never <;> simp at never
    · exact .root
  · exact (getD_setIfInBounds_true _ _ _).mpr (.inr ⟨rfl, by simpa using valid.root_lt⟩)
  · exact absurd (Array.getElem?_eq_some_iff.mp found).1 (Nat.not_lt.mpr size_le)

/-- The index is marked by the sweep. -/
def isMarked (e : Expr α) (i : NodeId) : Bool := e.marks.getD i false

theorem Valid.size_marks {e : Expr α} (valid : e.Valid) : e.marks.size = e.nodes.size :=
  (valid.swept).size_eq

theorem Valid.isMarked_iff {e : Expr α} (valid : e.Valid) {i : NodeId} :
    e.isMarked i = true ↔ e.Reachable i := by
  have swept := valid.swept
  refine ⟨swept.sound i, fun reachable => ?_⟩
  induction reachable with
  | root => exact swept.root
  | child parent found member ih => exact swept.closed _ _ (Nat.zero_le _) ih found _ member

/-- The number of marked nodes before an index, which is the slot of a marked node. -/
def slotIndex (e : Expr α) (i : NodeId) : Nat := (List.range i).countP e.isMarked

theorem slotIndex_succ (e : Expr α) (i : NodeId) :
    e.slotIndex (i + 1) = e.slotIndex i + if e.isMarked i then 1 else 0 := by
  rw [slotIndex, List.range_succ, List.countP_append, List.countP_singleton, slotIndex]

theorem slotIndex_mono (e : Expr α) {i j : NodeId} (i_le : i ≤ j) :
    e.slotIndex i ≤ e.slotIndex j := by
  induction i_le with
  | refl => exact Nat.le_refl _
  | step _ ih => exact Nat.le_trans ih (slotIndex_succ e _ ▸ Nat.le_add_right _ _)

theorem slotIndex_lt (e : Expr α) {i j : NodeId} (marked : e.isMarked i = true) (i_lt : i < j) :
    e.slotIndex i < e.slotIndex j := by
  have next := slotIndex_succ e i
  rw [if_pos marked] at next
  exact Nat.lt_of_lt_of_le (next ▸ Nat.lt_succ_self _) (e.slotIndex_mono i_lt)

theorem slotIndex_inj (e : Expr α) {i j : NodeId} (marked : e.isMarked i = true)
    (marked' : e.isMarked j = true) (same : e.slotIndex i = e.slotIndex j) : i = j := by
  rcases Nat.lt_trichotomy i j with i_lt | rfl | j_lt
  · exact absurd same (Nat.ne_of_lt (e.slotIndex_lt marked i_lt))
  · rfl
  · exact absurd same (Nat.ne_of_gt (e.slotIndex_lt marked' j_lt))

end Expr

namespace Program

-- Powers of naturals are those of the core library, whatever else is imported.
attribute [local instance (high)] instPowNat

variable {α : Type} [Scalar α]

/-- The draft of the nodes before an index: every node has its slot, and the instructions are those
of the marked nodes, each over the slots of its children. -/
structure Draft.Covers (featureCount : Nat) (e : Expr α) (i : NodeId) (draft : Draft α) : Prop where
  /-- Every node before the index has an entry. -/
  size_slotOf : draft.slotOf.size = i
  /-- Slots are counted by the marks. -/
  slotOf_eq : ∀ j, j < i → draft.slotOf.getD j 0 = e.slotIndex j
  /-- The next slot is free. -/
  size_instrs : draft.instrs.size = e.slotIndex i
  /-- Every instruction is that of a marked node. -/
  instr_of : ∀ (k : Nat) (instr : Instr α Nat), draft.instrs[k]? = some instr →
    ∃ j n, j < i ∧ e.isMarked j = true ∧ e.nodes[j]? = some n ∧ e.slotIndex j = k ∧
      Instr.ofNode? featureCount (n.map e.slotIndex) = .ok instr

theorem Draft.Covers.start (featureCount : Nat) (e : Expr α) :
    Draft.Covers featureCount e 0 ⟨#[], #[]⟩ where
  size_slotOf := rfl
  slotOf_eq _ j_lt := absurd j_lt (Nat.not_lt_zero _)
  size_instrs := rfl
  instr_of k instr found := by simp at found

/-- A draft is extended by the instruction of the next node if that is marked, and not at all
otherwise. -/
theorem Draft.Covers.extend {featureCount : Nat} {e : Expr α} (valid : e.Valid) {i : NodeId}
    {draft next : Draft α} (covers : draft.Covers featureCount e i) {n : Node α NodeId}
    (found : e.nodes[i]? = some n)
    (extended : draft.extend? featureCount (n, e.isMarked i) = .ok next) :
    next.Covers featureCount e (i + 1) := by
  have children_eq : (n.map fun c => draft.slotOf.getD c 0) = n.map e.slotIndex :=
    Node.map_congr fun c member => covers.slotOf_eq c (valid.child_lt found c member)
  have slotOf_eq : ∀ j, j < i + 1 →
      (draft.slotOf.push draft.instrs.size).getD j 0 = e.slotIndex j := by
    intro j j_lt
    simp only [Array.getD_eq_getD_getElem?, Array.getElem?_push, covers.size_slotOf,
      covers.size_instrs]
    split
    · rename_i same
      rw [same, Option.getD_some]
    · rename_i other
      rw [← Array.getD_eq_getD_getElem?]
      exact covers.slotOf_eq j (Nat.lt_of_le_of_ne (Nat.le_of_lt_succ j_lt) other)
  cases marked : e.isMarked i with
  | false =>
      simp only [Draft.extend?, marked, Bool.false_eq_true, if_false, Except.ok.injEq] at extended
      subst extended
      refine ⟨by simp [covers.size_slotOf], slotOf_eq, ?_, fun k instr at_k => ?_⟩
      · simp [covers.size_instrs, Expr.slotIndex_succ, marked]
      · obtain ⟨j, m, j_lt, rest⟩ := covers.instr_of k instr at_k
        exact ⟨j, m, Nat.lt_succ_of_lt j_lt, rest⟩
  | true =>
      simp only [Draft.extend?, marked, if_true, children_eq, bind_eq_ok_iff] at extended
      obtain ⟨instr, lowered, extended⟩ := extended
      simp only [pure, Except.pure, Except.ok.injEq] at extended
      subst extended
      refine ⟨by simp [covers.size_slotOf], slotOf_eq, ?_, fun k instr' at_k => ?_⟩
      · simp [covers.size_instrs, Expr.slotIndex_succ, marked]
      · rw [Array.getElem?_push] at at_k
        split at at_k
        · rename_i last
          obtain rfl : instr = instr' := by simpa using at_k
          exact ⟨i, n, Nat.lt_succ_self i, marked, found, by rw [last, covers.size_instrs], lowered⟩
        · obtain ⟨j, m, j_lt, rest⟩ := covers.instr_of k instr' at_k
          exact ⟨j, m, Nat.lt_succ_of_lt j_lt, rest⟩

theorem Draft.exists_extend?_iff {featureCount : Nat} {draft : Draft α} {n : Node α NodeId}
    {marked : Bool} :
    (∃ next, draft.extend? featureCount (n, marked) = .ok next) ↔
      (marked = true → n.isForeign featureCount = false) := by
  cases marked with
  | false => simp [extend?]
  | true =>
      have lowers : (∃ instr, Instr.ofNode? featureCount (n.map fun c => draft.slotOf.getD c 0) =
          .ok instr) ↔ _ := Instr.exists_ofNode?_iff
      rw [Instr.isForeign_map] at lowers
      simp only [extend?, if_true, bind_eq_ok_iff, true_imp_iff, ← lowers]
      constructor
      · rintro ⟨next, instr, lowered, -⟩
        exact ⟨instr, lowered⟩
      · rintro ⟨instr, lowered⟩
        exact ⟨_, instr, lowered, rfl⟩

omit [Scalar α] in
theorem getElem?_zip_marks {e : Expr α} (valid : e.Valid) {i : NodeId} {n : Node α NodeId}
    {marked : Bool} :
    (e.nodes.toList.zip e.marks.toList)[i]? = some (n, marked) ↔
      e.nodes[i]? = some n ∧ marked = e.isMarked i := by
  rw [List.getElem?_zip_eq_some, Array.getElem?_toList, Array.getElem?_toList, Expr.isMarked]
  refine and_congr_right fun found => ?_
  have i_lt : i < e.marks.size := valid.size_marks ▸ (Array.getElem?_eq_some_iff.mp found).1
  simp [Array.getD_eq_getD_getElem?, i_lt, eq_comm]

/-- A program is the compiled form of a formula. -/
structure Lowers (options : CompileOptions α) (e : Expr α) (p : Program α) : Prop where
  /-- Every instruction is that of a reachable node over the slots of its children. -/
  instr_of : ∀ (k : Nat) (instr : Instr α Nat), p.instrs[k]? = some instr →
    ∃ i n, e.Reachable i ∧ e.nodes[i]? = some n ∧ e.slotIndex i = k ∧
      Instr.ofNode? options.featureCount (n.map e.slotIndex) = .ok instr
  /-- Every reachable node has a slot. -/
  slotIndex_lt : ∀ i, e.Reachable i → e.slotIndex i < p.instrs.size
  /-- The width of the data is that of the options. -/
  featureCount_eq : p.featureCount = options.featureCount
  /-- The coefficients are counted. -/
  paramCount_eq : p.paramCount = (countParams p.instrs).toNat
  /-- The placeholder is that of the options. -/
  placeholder_eq : p.divisionPlaceholder = options.divisionPlaceholder

theorem compile?_eq_ok_iff {options : CompileOptions α} {e : Expr α} {p : Program α} :
    compile? options e = .ok p ↔ e.Valid ∧ options.timeoutMs ≠ 0 ∧ ∃ draft : Draft α,
      (e.nodes.toList.zip e.marks.toList).foldlM (Draft.extend? options.featureCount) ⟨#[], #[]⟩ =
          .ok draft ∧
        p = ⟨draft.instrs, options.featureCount, (countParams draft.instrs).toNat,
          options.divisionPlaceholder⟩ := by
  rw [← Expr.validate_eq_ok_iff, compile?]
  cases accepted : e.validate with
  | error fault => simp [Except.mapError, bind, Except.bind]
  | ok _ =>
      by_cases expired : options.timeoutMs = 0
      · simp [Except.mapError, expired, bind, Except.bind, throw, throwThe, MonadExceptOf.throw]
      · simp only [Except.mapError, expired, if_false, bind_eq_ok_iff, pure, Except.pure,
          Except.ok.injEq, true_and, ne_eq, not_false_eq_true, exists_const]
        simp only [eq_comm]

/-- Compilation succeeds if and only if nothing foreign is reachable. -/
theorem exists_compile?_iff {options : CompileOptions α} {e : Expr α} (valid : e.Valid)
    (unexpired : options.timeoutMs ≠ 0) :
    (∃ p, compile? options e = .ok p) ↔
      ∀ n, e.Reaches n → n.isForeign options.featureCount = false := by
  simp only [compile?_eq_ok_iff]
  constructor
  · rintro ⟨p, -, -, draft, folded, -⟩ n ⟨i, reachable, found⟩
    have native := foldlM_invariant
      (fun k (_ : Draft α) => ∀ j m, j < k → e.nodes[j]? = some m → e.isMarked j = true →
        m.isForeign options.featureCount = false)
      (fun j m j_lt => absurd j_lt (Nat.not_lt_zero _))
      (fun k item s s' at_k before stepped j m j_lt at_j marked => by
        rcases Nat.lt_succ_iff_lt_or_eq.mp j_lt with j_lt | rfl
        · exact before j m j_lt at_j marked
        · obtain ⟨at_j', marked_eq⟩ := (getElem?_zip_marks valid).mp at_k
          obtain rfl : item.1 = m := by simpa [at_j] using at_j'.symm
          exact Draft.exists_extend?_iff.mp ⟨s', stepped⟩ (marked_eq.trans marked))
      folded
    refine native i n ?_ found (valid.isMarked_iff.mpr reachable)
    simpa [valid.size_marks] using (Array.getElem?_eq_some_iff.mp found).1
  · intro native
    obtain ⟨draft, folded⟩ : ∃ draft, (e.nodes.toList.zip e.marks.toList).foldlM
        (Draft.extend? options.featureCount) ⟨#[], #[]⟩ = .ok draft :=
      foldlM_exists (fun _ _ => True) trivial fun k item s at_k _ => by
        obtain ⟨at_k', marked_eq⟩ := (getElem?_zip_marks valid).mp at_k
        obtain ⟨next, stepped⟩ : ∃ next, s.extend? options.featureCount item = .ok next :=
          Draft.exists_extend?_iff.mpr fun marked =>
            native item.1 ⟨k, valid.isMarked_iff.mp (marked_eq ▸ marked), at_k'⟩
        exact ⟨next, stepped, trivial⟩
    exact ⟨_, valid, unexpired, draft, folded, rfl⟩

theorem lowers_of_compile? {options : CompileOptions α} {e : Expr α} {p : Program α}
    (compiled : compile? options e = .ok p) : Lowers options e p := by
  obtain ⟨valid, -, draft, folded, rfl⟩ := compile?_eq_ok_iff.mp compiled
  have covers := foldlM_invariant (Draft.Covers options.featureCount e) (.start _ e)
    (fun i item s s' found covers extended => by
      obtain ⟨found, marked_eq⟩ := (getElem?_zip_marks valid).mp found
      exact covers.extend valid found (marked_eq ▸ extended)) folded
  rw [List.length_zip, Array.length_toList, Array.length_toList, valid.size_marks,
    Nat.min_self] at covers
  refine ⟨fun k instr found => ?_, fun i reachable => ?_, rfl, rfl, rfl⟩
  · obtain ⟨i, n, -, marked, at_i, slot_eq, lowered⟩ := covers.instr_of k instr found
    exact ⟨i, n, valid.isMarked_iff.mp marked, at_i, slot_eq, lowered⟩
  · have i_lt : i < e.nodes.size := Nat.lt_of_le_of_lt (valid.le_root reachable) valid.root_lt
    rw [covers.size_instrs]
    exact e.slotIndex_lt (valid.isMarked_iff.mpr reachable) i_lt

/-- The greatest index of a coefficient, which cannot be counted in a 64-bit word. -/
def uncountable : UInt64 := UInt64.ofNat (2 ^ (64 : Nat) - 1)

/-- Counts a coefficient: the count is one more than the greatest index, as a 64-bit word. -/
def countIndex (count i : UInt64) : UInt64 := if count < i + 1 then i + 1 else count

/-- The count of coefficients is the least word that no index passes. -/
theorem foldl_countIndex_le_iff {indices : List UInt64} {start bound : UInt64} :
    indices.foldl countIndex start ≤ bound ↔ start ≤ bound ∧ ∀ i ∈ indices, i + 1 ≤ bound := by
  have count_le (count i : UInt64) :
      countIndex count i ≤ bound ↔ count ≤ bound ∧ i + 1 ≤ bound := by
    simp only [countIndex, UInt64.le_iff_toNat_le]
    split
    · rename_i less
      rw [UInt64.lt_iff_toNat_lt] at less
      omega
    · rename_i enough
      rw [UInt64.lt_iff_toNat_lt] at enough
      omega
  induction indices generalizing start with
  | nil => simp
  | cons i indices ih =>
      rw [List.foldl_cons]
      exact ih.trans (by rw [count_le, List.forall_mem_cons, and_assoc])

/-- Every index is below the count, except the greatest one. -/
theorem lt_foldl_countIndex {indices : List UInt64} {i : UInt64} (member : i ∈ indices)
    (countable : i ≠ uncountable) : i.toNat < (indices.foldl countIndex 0).toNat := by
  have next_le := (foldl_countIndex_le_iff.mp (UInt64.le_refl (indices.foldl countIndex 0))).2 i
    member
  have i_lt : i.toNat + 1 < 2 ^ 64 := by
    have bound := i.toNat_lt
    have other : i.toNat ≠ 2 ^ 64 - 1 := fun same =>
      countable (UInt64.toNat_inj.mp (by rw [same]; rfl))
    omega
  have succ_eq : (i + 1).toNat = i.toNat + 1 := by
    rw [UInt64.toNat_add]
    exact Nat.mod_eq_of_lt i_lt
  rwa [UInt64.le_iff_toNat_le, succ_eq] at next_le

theorem foldl_countIndex_eq_zero {indices : List UInt64} (all : ∀ i ∈ indices, i = uncountable) :
    indices.foldl countIndex 0 = 0 := by
  have none_counted : indices.foldl countIndex 0 ≤ 0 :=
    foldl_countIndex_le_iff.mpr ⟨UInt64.le_refl 0, fun i member => by rw [all i member]; decide⟩
  exact UInt64.le_antisymm none_counted (UInt64.zero_le)

/-- The index of the coefficient that an instruction reads. -/
def paramIndex? : Instr α Nat → Option UInt64
  | .param i => some (UInt64.ofNat i)
  | _ => none

omit [Scalar α] in
theorem countParams_eq (instrs : Array (Instr α Nat)) :
    countParams instrs = (instrs.toList.filterMap paramIndex?).foldl countIndex 0 := by
  rw [countParams, ← Array.foldl_toList, List.foldl_filterMap]
  congr 1
  funext count instr
  cases instr <;> rfl

omit [Scalar α] in
theorem lt_countParams {instrs : Array (Instr α Nat)} {i : UInt64}
    (found : .param i.toNat ∈ instrs.toList) (countable : i ≠ uncountable) :
    i.toNat < (countParams instrs).toNat := by
  rw [countParams_eq]
  refine lt_foldl_countIndex (List.mem_filterMap.mpr ⟨_, found, ?_⟩) countable
  rw [paramIndex?, UInt64.ofNat_toNat]

end Program

@[simp]
theorem Matrix.length_rowList {α : Type} (x : Matrix α) : x.rowList.length = x.rows := by
  simp [rowList]

theorem Matrix.rowList_ne_nil {α : Type} {x : Matrix α} (rows : x.rows ≠ 0) : x.rowList ≠ [] :=
  fun empty => rows (x.length_rowList.symm.trans (congrArg List.length empty))

theorem Matrix.size_of_mem_rowList {α : Type} {x : Matrix α} {row : Array α}
    (member : row ∈ x.rowList) : row.size = x.cols := by
  obtain ⟨i, i_lt, rfl⟩ := List.mem_map.mp member
  rw [Matrix.row, Array.size_extract, Nat.min_eq_left (x.row_end_le (List.mem_range.mp i_lt)),
    Nat.add_sub_cancel_left]

namespace Program

variable {α : Type} [Scalar α]

namespace Lowers

variable {options : CompileOptions α} {e : Expr α} {p : Program α}

theorem operand_lt (lowers : Lowers options e p) (valid : e.Valid) {k : Nat} {instr : Instr α Nat}
    (found : p.instrs[k]? = some instr) : ∀ a ∈ instr.operands, a < k := by
  obtain ⟨i, n, reachable, at_i, rfl, lowered⟩ := lowers.instr_of k instr found
  rw [Instr.operands_of_ofNode? lowered, Node.children_map]
  intro a member
  obtain ⟨c, is_child, rfl⟩ := List.mem_map.mp member
  exact e.slotIndex_lt (valid.isMarked_iff.mpr (.child reachable at_i is_child))
    (valid.child_lt at_i c is_child)

theorem nonempty (lowers : Lowers options e p) : 0 < p.instrs.size :=
  Nat.lt_of_le_of_lt (Nat.zero_le _) (lowers.slotIndex_lt e.root .root)

/-- Nothing reachable comes after the root, so the root has the last slot. -/
theorem slotIndex_root (lowers : Lowers options e p) (valid : e.Valid) :
    e.slotIndex e.root = p.instrs.size - 1 := by
  have last_lt : p.instrs.size - 1 < p.instrs.size :=
    Nat.sub_one_lt (Nat.ne_of_gt lowers.nonempty)
  obtain ⟨i, n, reachable, -, slot_eq, -⟩ := lowers.instr_of _ _ (Array.getElem?_eq_getElem last_lt)
  rcases Nat.eq_or_lt_of_le (valid.le_root reachable) with rfl | i_lt
  · exact slot_eq
  · have above := e.slotIndex_lt (valid.isMarked_iff.mpr reachable) i_lt
    exact absurd (lowers.slotIndex_lt e.root .root) (by omega)

theorem instr_at (lowers : Lowers options e p) (valid : e.Valid) {i : NodeId} {n : Node α NodeId}
    (reachable : e.Reachable i) (found : e.nodes[i]? = some n) :
    ∃ instr, p.instrs[e.slotIndex i]? = some instr ∧
      Instr.ofNode? options.featureCount (n.map e.slotIndex) = .ok instr := by
  have slot_lt := lowers.slotIndex_lt i reachable
  obtain ⟨j, m, reachable', at_j, slot_eq, lowered⟩ :=
    lowers.instr_of _ _ (Array.getElem?_eq_getElem slot_lt)
  obtain rfl := e.slotIndex_inj (valid.isMarked_iff.mpr reachable')
    (valid.isMarked_iff.mpr reachable) slot_eq
  obtain rfl : n = m := by simpa [found] using at_j
  exact ⟨_, Array.getElem?_eq_getElem slot_lt, lowered⟩

theorem exists_reaches_param (lowers : Lowers options e p) {k j : Nat}
    (found : p.instrs[k]? = some (.param j)) : ∃ i, e.Reaches (.param i) ∧ j = i.toNat := by
  obtain ⟨index, n, reachable, at_index, -, lowered⟩ := lowers.instr_of k _ found
  obtain ⟨i, node_eq, rfl⟩ := Instr.param_of_ofNode? lowered
  have n_eq : n = .param i := by
    cases n <;> simp [Node.map] at node_eq
    rw [node_eq]
  exact ⟨i, ⟨index, reachable, n_eq ▸ at_index⟩, rfl⟩

theorem paramCount_eq_zero (lowers : Lowers options e p)
    (uncounted : ∀ i, e.Reaches (.param i) → i = uncountable) : p.paramCount = 0 := by
  rw [lowers.paramCount_eq, countParams_eq, foldl_countIndex_eq_zero]
  · rfl
  · intro i member
    obtain ⟨instr, member, index_eq⟩ := List.mem_filterMap.mp member
    obtain ⟨k, found⟩ := List.mem_iff_getElem?.mp member
    rw [Array.getElem?_toList] at found
    cases instr with
    | param j =>
        obtain ⟨i', reaches, rfl⟩ := lowers.exists_reaches_param found
        obtain rfl : i' = i := by simpa [paramIndex?] using index_eq
        exact uncounted i' reaches
    | _ => cases index_eq

/-- An instruction fits rows that are wide enough and coefficients that are all supplied, unless it
reads the coefficient that is not counted. -/
theorem instr_fits (lowers : Lowers options e p) (valid : e.Valid) {row params : Array α}
    (wide : options.featureCount ≤ row.size) (supplied : params.size = p.paramCount) {k : Nat}
    {instr : Instr α Nat} (found : p.instrs[k]? = some instr)
    (countable : instr ≠ .param uncountable.toNat) : instr.Fits row params k := by
  obtain ⟨i, n, reachable, at_i, -, lowered⟩ := lowers.instr_of k instr found
  refine ⟨?_, ?_, lowers.operand_lt valid found⟩
  · rintro j rfl
    exact Nat.lt_of_lt_of_le (Instr.var_of_ofNode? lowered) wide
  · rintro j rfl
    obtain ⟨j, reaches, rfl⟩ := lowers.exists_reaches_param found
    rw [supplied, lowers.paramCount_eq]
    refine lt_countParams (Array.mem_toList_iff.mpr (Array.mem_of_getElem? found)) ?_
    rintro rfl
    exact countable rfl

theorem fits (lowers : Lowers options e p) (valid : e.Valid)
    (countable : ¬e.Reaches (.param uncountable)) {row params : Array α}
    (wide : options.featureCount ≤ row.size) (supplied : params.size = p.paramCount) :
    p.Fits row params := by
  intro k instr found
  refine lowers.instr_fits valid wide supplied found ?_
  rintro rfl
  obtain ⟨i, reaches, index_eq⟩ := lowers.exists_reaches_param found
  exact countable (UInt64.toNat_inj.mp index_eq ▸ reaches)

/-- Slots filled by a rule for instructions hold the results of folding by the matching rule for
nodes. -/
theorem fold_treeAt {γ : Type} [Zero γ] (lowers : Lowers options e p) (valid : e.Valid)
    {nodeRule : Node α (Option γ) → Option γ} {rule : Instr α γ → γ}
    (agree : ∀ (k : Nat) (instr : Instr α Nat), p.instrs[k]? = some instr →
      ∀ (slots : Array γ) (n : Node α γ), Instr.ofNode? options.featureCount n =
        .ok (instr.atSlots slots) → nodeRule (n.map some) = some (rule (instr.atSlots slots)))
    {i : NodeId} (reachable : e.Reachable i) :
    (e.treeAt i).fold nodeRule =
      some ((Instr.fill rule p.instrs.toList).getD (e.slotIndex i) 0) := by
  refine valid.reachable_induction (P := fun i => (e.treeAt i).fold nodeRule =
    some ((Instr.fill rule p.instrs.toList).getD (e.slotIndex i) 0)) ?_ reachable
  intro i n reachable found children
  obtain ⟨instr, at_slot, lowered⟩ := lowers.instr_at valid reachable found
  have results : ∀ c ∈ n.children, (Tree.fold nodeRule ∘ e.treeAt) c =
      (some ∘ (fun a => (Instr.fill rule p.instrs.toList).getD a 0) ∘ e.slotIndex) c := children
  rw [valid.treeAt_eq found, Tree.fold_mk, Node.map_map, Node.map_congr results,
    Instr.getD_fill rule (by simpa using at_slot) (lowers.operand_lt valid at_slot),
    ← Node.map_map, ← Node.map_map]
  exact agree _ _ at_slot _ _ (Instr.ofNode?_map lowered _)

theorem value?_unfold (lowers : Lowers options e p) (valid : e.Valid) {row params : Array α}
    (fits : p.Fits row params) :
    e.unfold.value? options.divisionPlaceholder row params =
      some ((p.rowSlots row params).getD (p.instrs.size - 1) 0) := by
  rw [← lowers.slotIndex_root valid, ← lowers.placeholder_eq, Expr.unfold_eq_treeAt]
  refine lowers.fold_treeAt valid (fun k instr found slots n lowered => ?_) .root
  have instr_fits := fits k instr found
  exact Instr.value?_of_ofNode? lowered _ (instr_fits.leaves slots).1 (instr_fits.leaves slots).2

theorem evaluate_eq (lowers : Lowers options e p) (valid : e.Valid)
    (countable : ¬e.Reaches (.param uncountable)) {x : Matrix α} {params : Array α}
    (wide : options.featureCount ≤ x.cols) (supplied : params.size = p.paramCount) :
    p.evaluate x params =
      .ok (x.rowList.map fun row => (p.rowSlots row params).getD (p.instrs.size - 1) 0) := by
  have checked : p.checkInputs x params = .ok () :=
    checkInputs_eq_ok_iff.mpr ⟨supplied, lowers.featureCount_eq ▸ wide⟩
  have row_fits : ∀ row ∈ x.rowList, p.Fits row params := fun row member =>
    lowers.fits valid countable (x.size_of_mem_rowList member ▸ wide) supplied
  rw [evaluate, checked]
  exact evaluateRows_eq row_fits (by simp [freshSlots]) lowers.nonempty

theorem lt_of_reaches_param (lowers : Lowers options e p) (valid : e.Valid) {i : UInt64}
    (reaches : e.Reaches (.param i)) {row params buffer slots : Array α}
    (finished : p.forward row params buffer = .ok slots) : i.toNat < params.size := by
  obtain ⟨index, reachable, at_index⟩ := reaches
  obtain ⟨instr, found, lowered⟩ := lowers.instr_at valid reachable at_index
  obtain rfl : Instr.param i.toNat = instr := Except.ok.inj lowered
  exact lt_of_forward_eq_ok finished found

theorem size_le_uncountable (lowers : Lowers options e p) {params : Array α}
    (supplied : params.size = p.paramCount) : params.size ≤ uncountable.toNat := by
  rw [supplied, lowers.paramCount_eq]
  exact Nat.le_of_lt_succ (countParams p.instrs).toNat_lt

/-- No run over a row succeeds if a coefficient of the greatest index is reachable. -/
theorem forward_ne_ok (lowers : Lowers options e p) (valid : e.Valid)
    (uncounted : e.Reaches (.param uncountable)) {params : Array α}
    (supplied : params.size = p.paramCount) (row buffer slots : Array α) :
    p.forward row params buffer ≠ .ok slots := fun finished =>
  Nat.not_lt.mpr (lowers.size_le_uncountable supplied)
    (lowers.lt_of_reaches_param valid uncounted finished)

end Lowers

end Program

theorem Expr.compile_eq_ok_iff {options : CompileOptions Float} {e : Expr Float}
    {p : Program Float} : e.compile options = .ok p ↔ Program.compile? options e = .ok p := by
  rw [Expr.compile]
  cases Program.compile? options e <;> simp [Except.mapError]

/-- Compilation preserves values: a valid formula compiles in time if and only if nothing foreign is
reachable, and its program, which fills every slot before it is read and does not depend on what the
slots held before, gives every row the value of the tree. -/
theorem Expr.compile_preserves_values (e : Expr Float) (options : CompileOptions Float)
    (accepted : e.validate = .ok ()) (unexpired : options.timeoutMs ≠ 0)
    (countable : ¬e.Reaches (.param Program.uncountable)) :
    ((∃ p, e.compile options = .ok p) ↔
        ∀ n, e.Reaches n → n.isForeign options.featureCount = false) ∧
      ∀ p, e.compile options = .ok p →
        (∀ (k : Nat) (instr : Instr Float Nat), p.instrs[k]? = some instr →
          ∀ a ∈ instr.operands, a < k) ∧
        ∀ (x : Matrix Float) (params : Array Float), options.featureCount ≤ x.cols →
          params.size = p.paramCount →
          (∃ values, p.evaluate x params = .ok values ∧
            values.map some =
              x.rowList.map (e.unfold.value? options.divisionPlaceholder · params)) ∧
          ∀ row ∈ x.rowList, ∃ slots, ∀ buffer : Array Float, buffer.size = p.instrs.size →
            p.forward row params buffer = .ok slots := by
  have valid := (Expr.validate_eq_ok_iff e).mp accepted
  simp only [Expr.compile_eq_ok_iff]
  refine ⟨Program.exists_compile?_iff valid unexpired, fun p compiled => ?_⟩
  have lowers := Program.lowers_of_compile? compiled
  refine ⟨fun k instr found => lowers.operand_lt valid found, fun x params wide supplied => ?_⟩
  have row_fits : ∀ row ∈ x.rowList, p.Fits row params := fun row member =>
    lowers.fits valid countable (x.size_of_mem_rowList member ▸ wide) supplied
  refine ⟨⟨_, lowers.evaluate_eq valid countable wide supplied, ?_⟩, fun row member => ?_⟩
  · rw [List.map_map]
    exact List.map_congr_left fun row member =>
      (lowers.value?_unfold valid (row_fits row member)).symm
  · exact ⟨_, fun buffer size_eq => Program.forward_eq_rowSlots (row_fits row member) size_eq⟩

/-- A stored formula with a shared node, a repeated operand and an unreachable coefficient. -/
def Expr.sharedQuotient : Expr Float :=
  ⟨#[.var 0, .param 7, .param 0, .binary .div 2 0, .nary .mul [3, 0, 3]], 4⟩

theorem Expr.sharedQuotient_compiles :
    Expr.sharedQuotient.validate = .ok () ∧
      ¬Expr.sharedQuotient.Reaches (.param Program.uncountable) ∧
      ∃ p, Expr.sharedQuotient.compile ⟨1, 5, 1⟩ = .ok p := by
  have accepted : Expr.sharedQuotient.validate = .ok () := rfl
  have countable : ¬Expr.sharedQuotient.Reaches (.param Program.uncountable) := fun reaches => by
    simpa [sharedQuotient, Program.uncountable] using reaches.mem
  have native : ∀ n ∈ Expr.sharedQuotient.nodes.toList, n.isForeign 1 = false := by decide
  exact ⟨accepted, countable, (Expr.compile_preserves_values Expr.sharedQuotient ⟨1, 5, 1⟩ accepted
    (by decide) countable).1.mpr fun n reaches => native n reaches.mem⟩

end FormulaFit
