import FormulaFit.Proofs.Rewriting.Confinement

/-!
# Sanitization always succeeds

Every turn of a repair keeps the formula within its own names and levels, so its stored form is
valid; and what is left after replacement, or needs none, is not degenerate.  Hence the last check
never refuses a repaired formula, whether the turns suffice or run out.
-/

namespace FormulaFit

variable {α : Type}

section Storing

variable {γ δ : Type} {P : Arena α → Prop}

/-- A computation keeps a property of arenas. -/
def Keeps (P : Arena α → Prop) (write : StateM (Arena α) γ) : Prop :=
  ∀ arena, P arena → P (write arena).2

theorem keeps_pure (c : γ) : Keeps P (pure c) := fun _ holds => holds

theorem Keeps.bind {write : StateM (Arena α) γ} {next : γ → StateM (Arena α) δ}
    (keeps : Keeps P write) (keeps' : ∀ c, Keeps P (next c)) : Keeps P (write >>= next) :=
  fun _ holds => keeps' _ _ (keeps _ holds)

theorem keeps_mapM_list {writes : List (StateM (Arena α) γ)} (each : ∀ w ∈ writes, Keeps P w) :
    Keeps P (writes.mapM id) := by
  induction writes with
  | nil => exact keeps_pure []
  | cons write writes ih =>
      obtain ⟨first, later⟩ := List.forall_mem_cons.mp each
      rw [List.mapM_cons]
      exact first.bind fun c => (ih later).bind fun cs => keeps_pure _

theorem keeps_mapM {n : Node α (StateM (Arena α) γ)} (each : ∀ w ∈ n.children, Keeps P w) :
    Keeps P (n.mapM id) := by
  have pair {a b : StateM (Arena α) γ} (join : γ → γ → Node α γ)
      (each : ∀ w ∈ [a, b], Keeps P w) :
      Keeps P (do let a ← a; let b ← b; return join a b) :=
    (each a (by simp)).bind fun _ => (each b (by simp)).bind fun _ => keeps_pure _
  cases n with
  | unary op a => exact (each a (by simp [Node.children])).bind fun _ => keeps_pure _
  | binary op a b => exact pair (.binary op) each
  | relation op a b => exact pair (.relation op) each
  | bounds a b => exact pair .bounds each
  | nary op args => exact (keeps_mapM_list each).bind fun _ => keeps_pure _
  | call name args => exact (keeps_mapM_list each).bind fun _ => keeps_pure _
  | _ => exact keeps_pure _

/-- Every node of an arena, whatever its children are, has the property. -/
def Arena.Each (P : Node α Unit → Prop) (arena : Arena α) : Prop :=
  ∀ (i : NodeId) (n : Node α NodeId), arena[i]? = some n → P (n.map fun _ => ())

theorem Node.mapM_shape {σ : Type} (n : Node α (StateM σ γ)) (s : σ) :
    (n.mapM id s).1.map (fun _ => ()) = n.map fun _ => () := by
  have length_eq (items : List (StateM σ γ)) (s : σ) :
      (items.mapM id s).1.map (fun _ => ()) = items.map fun _ => () := by
    induction items generalizing s with
    | nil => rfl
    | cons item items ih =>
        rw [List.mapM_cons]
        exact congrArg (() :: ·) (ih (item s).2)
  cases n with
  | nary op args => exact congrArg (Node.nary op) (length_eq args s)
  | call name args => exact congrArg (Node.call name) (length_eq args s)
  | _ => rfl

/-- Appending a node behind what is written for its children keeps a property that the node has. -/
theorem Arena.keeps_node {β : Type} {P : Node α Unit → Prop} {push : β → StateM (Arena α) NodeId}
    {n : Node α β} (here : P (n.map fun _ => ()))
    (each : ∀ c ∈ n.children, Keeps (Arena.Each P) (push c)) :
    Keeps (Arena.Each P) (do Arena.push (← (n.map push).mapM id)) := by
  intro arena holds
  have children : Keeps (Arena.Each P) ((n.map push).mapM id) :=
    keeps_mapM (Node.forall_children_map.mpr each)
  have shape := Node.mapM_shape (n.map push) arena
  rw [Node.map_map] at shape
  intro i m found
  change (Array.push ((n.map push).mapM id arena).2 ((n.map push).mapM id arena).1)[i]? = _ at found
  rw [Array.getElem?_push] at found
  split at found
  · obtain rfl := Option.some.inj found
    rw [shape]
    exact here
  · exact children arena holds i m found

/-- Every node of an arena is proper. -/
def Arena.IsProper (names : List (Node α Unit)) (arena : Arena α) : Prop :=
  ∀ (i : NodeId) (n : Node α NodeId), arena[i]? = some n → n.IsProper names

namespace Tree

variable {names : List (Node α Unit)} {levels : Nat} {t : Tree α}

theorem All.keeps_push {P : Node α Unit → Prop} {t : Tree α}
    (all : t.All fun n => P (n.map fun _ => ())) : Keeps (Arena.Each P) t.push := by
  induction all with
  | @mk n here _ ih =>
      rw [push, fold_mk]
      exact Arena.keeps_node here ih

theorem All.of_store {P : Node α Unit → Prop} {t : Tree α}
    (all : t.All fun n => P (n.map fun _ => ())) {i : NodeId} {n : Node α NodeId}
    (found : t.store.nodes[i]? = some n) : P (n.map fun _ => ()) :=
  all.keeps_push #[] (fun i n absent => by simp at absent) i n found

theorem Within.all_proper (within : t.Within names levels) :
    t.All fun n => (n.map fun _ => ()).IsProper names := by
  induction within with
  | mk proper _ ih => exact .mk ((Node.isProper_map _ _ _).mpr proper) ih

theorem Within.proper_store (within : t.Within names levels) : t.store.nodes.IsProper names :=
  fun _ _ found => (Node.isProper_map _ _ _).mp (within.all_proper.of_store found)

/-- What is not nested too deeply has a valid stored form. -/
theorem Within.valid_store (within : t.Within names levels) (levels_le : levels ≤ depthLimit) :
    t.store.Valid where
  root_lt := t.root_store_lt
  child_lt found := t.ordered_store _ _ found
  operands_ne_nil found := within.proper_store _ _ found
  depth_le := by
    rw [Expr.depth_eq t.ordered_store t.root_store_lt, unfold_store]
    exact Nat.le_trans within.depth_le levels_le

end Tree

end Storing

theorem Node.isDegenerate_head [Scalar α] {β : Type} (n : Node α β) :
    n.head.isDegenerate = n.isDegenerate := by
  cases n <;> rfl

namespace Tree

theorem isFinite_of_replacement? {placeholder : Float} (finite : placeholder.isFinite = true)
    {n : Node Float Unit} {v : Float} (replaced : replacement? placeholder n = some v) :
    v.isFinite = true := by
  unfold replacement? at replaced
  split at replaced
  · cases replaced
    decide +kernel
  · split at replaced
    · cases replaced
      exact finite
    · cases replaced

theorem isDegenerate_of_replacement? {placeholder : Float} {n : Node Float Unit}
    (kept : replacement? placeholder n = none) : n.isDegenerate = false := by
  unfold replacement? at kept
  split at kept
  · cases kept
  · split at kept
    · cases kept
    · rename_i regular
      exact Bool.eq_false_iff.mpr regular

theorem isDegenerate_substitute {placeholder : Float} (finite : placeholder.isFinite = true)
    (t : Tree Float) : ∀ h ∈ (t.substitute placeholder).heads, h.isDegenerate = false := by
  intro h member
  rcases replacement?_of_mem_heads_substitute member with ⟨n, v, replaced, rfl⟩ | kept
  · exact congrArg not (isFinite_of_replacement? finite replaced)
  · exact isDegenerate_of_replacement? kept

theorem isDegenerate_of_not_isReplaceable {placeholder : Float} {t : Tree Float}
    (settled : ¬t.isReplaceable placeholder = true) : ∀ h ∈ t.heads, h.isDegenerate = false := by
  intro h member
  rw [isReplaceable, List.any_eq_true, not_exists] at settled
  exact isDegenerate_of_replacement? (by simpa using fun kept => settled h ⟨member, kept⟩)

end Tree

namespace Expr

variable {names : List (Node Float Unit)} {levels : Nat} {t : Tree Float}

theorem finish_of_within (within : t.Within names levels) (levels_le : levels ≤ depthLimit)
    (regular : ∀ h ∈ t.heads, h.isDegenerate = false) : t.finish = .ok t.store := by
  have valid := within.valid_store levels_le
  have hasDegenerate_eq : t.store.hasDegenerate = false := by
    refine List.any_eq_false.mpr fun n member => ?_
    have head_mem := (valid.mem_reachable_iff.mp member).head_mem_heads valid.ordered
    rw [Tree.unfold_store] at head_mem
    rw [← Node.isDegenerate_head, regular _ head_mem]
    decide
  rw [Tree.finish, finish, (validate_eq_ok_iff _).mpr valid]
  simp [hasDegenerate_eq, Except.mapError, bind, Except.bind, pure, Except.pure]

theorem simplifyOrKeep_within (deadline : Deadline) (within : t.Within names levels) :
    (t.simplifyOrKeep deadline).Within names levels := by
  unfold Tree.simplifyOrKeep
  split
  · exact within
  · exact Tree.simplify_within within

/-- Replacement and simplification end with a formula within the given names and levels, however
many turns there are. -/
theorem exists_settle_eq_ok (deadline : Deadline) {placeholder : Float}
    (finite : placeholder.isFinite = true) (levels_le : levels ≤ depthLimit) (turns : Nat)
    (within : t.Within names levels) :
    ∃ u : Tree Float, t.settle deadline placeholder turns = .ok u.store ∧
      u.Within names levels := by
  induction turns generalizing t with
  | zero =>
      have within' := Tree.substitute_within placeholder within
      exact ⟨_, finish_of_within within' levels_le (t.isDegenerate_substitute finite), within'⟩
  | succ turns ih =>
      rw [Tree.settle]
      split
      · exact ih (simplifyOrKeep_within deadline (Tree.substitute_within placeholder within))
      · rename_i settled
        have regular := Tree.isDegenerate_of_not_isReplaceable settled
        exact ⟨t, finish_of_within within levels_le regular, within⟩

theorem paramCount_eq_zero {e : Expr Float} (valid : e.Valid) (bound : ∀ i, ¬e.Reaches (.param i)) :
    e.paramCount = 0 := by
  rw [paramCount_eq]
  refine Program.foldl_countIndex_eq_zero fun i member => absurd ?_ (bound i)
  obtain ⟨n, member, index_eq⟩ := List.mem_filterMap.mp member
  cases n <;> cases index_eq
  exact valid.mem_reachable_iff.mp member

section Sanitize

variable (policy : SanitizePolicy) {e : Expr Float}

theorem exists_sanitize_eq_ok (accepted : e.validate = .ok ()) (bound : ∀ i, ¬e.Reaches (.param i))
    (finite : policy.placeholder.isFinite = true) :
    ∃ u : Tree Float, e.sanitize policy = .ok u.store ∧ u.Within e.unfold.heads e.depth := by
  have valid := (validate_eq_ok_iff e).mp accepted
  obtain ⟨u, settled, within⟩ :=
    exists_settle_eq_ok ⟨.simplify, policy.simplifyTimeoutMs⟩ finite valid.depth_le sanitizeTurns
      (simplifyOrKeep_within ⟨.simplify, policy.simplifyTimeoutMs⟩ valid.unfold_within)
  refine ⟨u, ?_, within⟩
  rw [sanitize_eq, accepted, paramCount_eq_zero valid bound]
  exact settled

/-- A formula is a repaired form of another. -/
structure Repairs (e s : Expr Float) : Prop where
  accepted : s.validate = .ok ()
  symbol_free : ∀ symbol, ¬s.Reaches (.symbol symbol)
  relation_free : ∀ op a b, ¬s.Reaches (.relation op a b)
  bounds_free : ∀ a b, ¬s.Reaches (.bounds a b)
  finite : ∀ v, s.Reaches (.const v) → v.isFinite = true
  param_free : ∀ i, ¬s.Reaches (.param i)
  depth_le : s.depth ≤ e.depth
  var_occurs : ∀ i, s.Reaches (.var i) → e.Reaches (.var i)
  call_occurs : ∀ name args, s.Reaches (.call name args) → ∃ args', e.Reaches (.call name args')

theorem repairs_of_sanitize (accepted : e.validate = .ok ()) (bound : ∀ i, ¬e.Reaches (.param i))
    (finite : policy.placeholder.isFinite = true) {s : Expr Float}
    (repaired : e.sanitize policy = .ok s) : e.Repairs s := by
  have valid := (validate_eq_ok_iff e).mp accepted
  obtain ⟨u, repaired', within⟩ := exists_sanitize_eq_ok policy accepted bound finite
  obtain rfl : u.store = s := Except.ok.inj (repaired'.symm.trans repaired)
  have sanitized := sanitized_of_sanitize repaired
  -- What names something in the result is proper there, so its head is among those of the formula.
  have occurs {n : Node Float NodeId} (reaches : u.store.Reaches n) :
      n.IsProper e.unfold.heads := by
    obtain ⟨i, -, found⟩ := reaches
    exact within.proper_store i n found
  exact {
    accepted := (validate_eq_ok_iff _).mpr sanitized.valid
    symbol_free := sanitized.symbol_free
    relation_free := fun op a b reaches => by cases sanitized.regular _ reaches
    bounds_free := fun a b reaches => by cases sanitized.regular _ reaches
    finite := fun v reaches =>
      (Bool.not_eq_false' v.isFinite).mp (sanitized.regular _ reaches)
    param_free := fun i reaches => by
      obtain ⟨n, reaches, head_eq⟩ := valid.exists_reaches_of_mem_heads (occurs reaches)
      cases n <;> cases head_eq
      exact bound i reaches
    depth_le := by
      rw [depth_eq u.ordered_store u.root_store_lt, Tree.unfold_store]
      exact within.depth_le
    var_occurs := fun i reaches => by
      obtain ⟨n, reaches, head_eq⟩ := valid.exists_reaches_of_mem_heads (occurs reaches)
      cases n <;> cases head_eq
      exact reaches
    call_occurs := fun name args reaches => by
      obtain ⟨n, reaches, head_eq⟩ := valid.exists_reaches_of_mem_heads (occurs reaches)
      cases n <;> cases head_eq
      exact ⟨_, reaches⟩ }

end Sanitize

/-- Sanitization repairs every valid formula without coefficients, also when no time is left for
simplification and when the turns run out. -/
theorem exists_repaired (policy : SanitizePolicy) (e : Expr Float) (accepted : e.validate = .ok ())
    (bound : ∀ i, ¬e.Reaches (.param i)) (finite : policy.placeholder.isFinite = true) :
    ∃ s, e.sanitize policy = .ok s ∧ e.Repairs s := by
  obtain ⟨u, repaired, -⟩ := exists_sanitize_eq_ok policy accepted bound finite
  exact ⟨u.store, repaired, repairs_of_sanitize policy accepted bound finite repaired⟩

/-- The comparison `max(zoo, oo - oo) < f(x_2)/0`, in which nearly everything is degenerate. -/
def brokenComparison : Expr Float :=
  ⟨#[.symbol .complexInf, .symbol .posInf, .binary .sub 1 1, .nary .max [0, 2], .var 2,
    .call "f" [4], .const 0, .binary .div 5 6, .relation .lt 3 7], 8⟩

theorem brokenComparison_repaired :
    brokenComparison.validate = .ok () ∧ (∀ i, ¬brokenComparison.Reaches (.param i)) ∧
      (1 : Float).isFinite = true ∧
      ∃ s, brokenComparison.sanitize ⟨5, 1⟩ = .ok s ∧ brokenComparison.Repairs s := by
  have accepted : brokenComparison.validate = .ok () := by decide +kernel
  have bound : ∀ i, ¬brokenComparison.Reaches (.param i) := fun i reaches => by
    simpa [brokenComparison] using reaches.mem
  have finite : (1 : Float).isFinite = true := by decide +kernel
  exact ⟨accepted, bound, finite, exists_repaired ⟨5, 1⟩ brokenComparison accepted bound finite⟩

end Expr

end FormulaFit
