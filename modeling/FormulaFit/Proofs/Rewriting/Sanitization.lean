import FormulaFit.Expr.Sanitize
import FormulaFit.Proofs.Arena.Occurrence
import FormulaFit.Proofs.Rewriting.Rules

/-!
# Sanitized formulas

Replacement, simplification and their turns are functions of the tree of a formula, like all walks.
Whatever sanitization gives is a valid formula without symbols, comparisons, bounds and literals
that are not finite.  All that keeps such a formula from being evaluated is what has no value at a
row of the data: a call, a coefficient, or a feature beyond the columns.
-/

namespace FormulaFit

namespace Tree

variable {α : Type} [Scalar α]

@[simp]
theorem replacement?_head {β : Type} (placeholder : α) (n : Node α β) :
    replacement? placeholder n.head = replacement? placeholder n := by
  cases n with
  | symbol s => cases s <;> rfl
  | _ => rfl

theorem replacement?_map {β γ : Type} (placeholder : α) (f : β → γ) (n : Node α β) :
    replacement? placeholder (n.map f) = replacement? placeholder n := by
  rw [← replacement?_head, Node.head_map, replacement?_head]

/-- Replaces symbols and degenerate parts by literals. -/
def substitute (placeholder : α) : Tree α → Tree α := fold fun n =>
  match replacement? placeholder n with
  | some v => const v
  | none => mk n

/-- Some part of the tree has a replacement. -/
def isReplaceable (placeholder : α) (t : Tree α) : Bool :=
  t.heads.any fun n => (replacement? placeholder n).isSome

theorem substitute_mk (placeholder : α) (n : Node α (Tree α)) :
    (mk n).substitute placeholder =
      match replacement? placeholder n with
      | some v => const v
      | none => mk (n.map (substitute placeholder)) := by
  rw [← replacement?_map placeholder (substitute placeholder)]
  exact fold_mk _ n

/-- After replacement, every head is a replacement or needs none. -/
theorem replacement?_of_mem_heads_substitute {placeholder : α} {t : Tree α} {h : Node α Unit}
    (member : h ∈ (t.substitute placeholder).heads) :
    (∃ (n : Node α Unit) (v : α), replacement? placeholder n = some v ∧ h = .const v) ∨
      replacement? placeholder h = none := by
  induction t using Tree.induction with
  | step n ih =>
      rw [substitute_mk] at member
      split at member
      · rename_i v replaced
        rw [const, heads_mk] at member
        rw [← replacement?_head] at replaced
        exact .inl ⟨_, v, replaced, List.mem_singleton.mp member⟩
      · rename_i kept
        rw [heads_mk, Node.head_map, Node.children_map] at member
        rcases List.mem_cons.mp member with rfl | later
        · exact .inr ((replacement?_head placeholder n).trans kept)
        · obtain ⟨t, member, below⟩ := List.mem_flatMap.mp later
          obtain ⟨u, is_child, rfl⟩ := List.mem_map.mp member
          exact ih u is_child below

/-- The simplified tree, or the same one once the deadline has passed. -/
def simplifyOrKeep (deadline : Deadline) (t : Tree α) : Tree α :=
  if deadline.expired then t else t.simplify

/-- Stores a repaired tree, provided that it is valid and nothing in it is degenerate. -/
def finish (t : Tree Float) : Except Error (Expr Float) := t.store.finish

/-- Lets replacement and simplification of a tree take turns until there is nothing to replace. -/
def settle (deadline : Deadline) (placeholder : Float) :
    (turns : Nat) → Tree Float → Except Error (Expr Float)
  | 0, t => finish (t.substitute placeholder)
  | turns + 1, t =>
    if t.isReplaceable placeholder then
      settle deadline placeholder turns (simplifyOrKeep deadline (t.substitute placeholder))
    else finish t

end Tree

namespace Expr

section Walks

variable {α : Type} [Scalar α]

/-- Notes that a node has a replacement. -/
def note (placeholder : α) (h : Node α Unit) : StateM Bool Unit :=
  if (Tree.replacement? placeholder h).isSome then set true else pure ()

theorem note_eq (placeholder : α) (h : Node α Unit) (found : Bool) :
    note placeholder h found = ((), found || (Tree.replacement? placeholder h).isSome) := by
  unfold note
  cases (Tree.replacement? placeholder h).isSome
  · exact congrArg (Prod.mk ()) (Bool.or_false found).symm
  · exact congrArg (Prod.mk ()) (Bool.or_true found).symm

theorem isReplaceable_mk (placeholder : α) (n : Node α (Tree α)) :
    (Tree.mk n).isReplaceable placeholder = ((n.children.any (Tree.isReplaceable placeholder)) ||
      (Tree.replacement? placeholder n.head).isSome) := by
  rw [Tree.isReplaceable, Tree.heads_mk, List.any_cons, List.any_flatMap, Bool.or_comm]
  rfl

theorem visit_note (placeholder : α) (t : Tree α) (found : Bool) :
    t.visit (note placeholder) found = ((), found || t.isReplaceable placeholder) := by
  have children (ts : List (Tree α)) (each : ∀ t ∈ ts, ∀ found, t.visit (note placeholder) found =
      ((), found || t.isReplaceable placeholder)) (found : Bool) :
      (forM ts (Tree.visit (note placeholder)) : StateM Bool Unit) found =
        ((), found || ts.any (Tree.isReplaceable placeholder)) := by
    induction ts generalizing found with
    | nil => exact congrArg (Prod.mk ()) (Bool.or_false found).symm
    | cons t ts ih =>
        obtain ⟨first, later⟩ := List.forall_mem_cons.mp each
        rw [List.forM_cons, List.any_cons, ← Bool.or_assoc]
        change (forM ts (Tree.visit (note placeholder)) : StateM Bool Unit)
          (t.visit (note placeholder) found).2 = _
        rw [ih later, first]
  induction t using Tree.induction generalizing found with
  | step n each =>
      rw [Tree.visit_mk, isReplaceable_mk, ← Bool.or_assoc]
      change note placeholder n.head
        ((forM n.children (Tree.visit (note placeholder)) : StateM Bool Unit) found).2 = _
      rw [children n.children each, note_eq]

/-- Replacement stores the tree with its replacements, and finds whether there are any. -/
theorem substitute_eq (placeholder : α) (e : Expr α) :
    e.substitute placeholder =
      ((e.unfold.substitute placeholder).store, e.unfold.isReplaceable placeholder) := by
  let replace : Node α NodeId → StateM (Arena α) NodeId := fun n =>
    match Tree.replacement? placeholder n with
    | some v => Arena.push (.const v)
    | none => Arena.push n
  have replaces : Replaces replace fun n =>
      match Tree.replacement? placeholder n with
      | some v => Tree.const v
      | none => Tree.mk n := by
    intro arena n ordered child_lt
    dsimp only [replace]
    rw [Tree.replacement?_map]
    split
    · exact Arena.writes_push fun c is_child => nomatch is_child
    · exact Arena.writes_push child_lt
  have step_eq (n : Node α NodeId) :
      (match Tree.replacement? placeholder n with
        | some v => do
          StateT.lift (set true)
          modifyGet (Arena.push (.const v))
        | none => modifyGet (Arena.push n) : StateT (Arena α) (StateM Bool) NodeId) =
        (do
          StateT.lift (note placeholder n.head)
          modifyGet (replace n)) := by
    dsimp only [note, replace]
    rw [Tree.replacement?_head]
    cases Tree.replacement? placeholder n <;> rfl
  have rebuilt := e.rebuildM_eq (note placeholder) replace
  rw [← funext step_eq] at rebuilt
  have outcome := congrFun rebuilt false
  change _ = (e.rebuild replace, (e.unfold.visit (note placeholder) false).2) at outcome
  rw [visit_note, Bool.false_or] at outcome
  refine (congrArg (fun r : Expr α × Bool => (r.1.compact, r.2)) outcome).trans ?_
  rw [compact_eq, unfold_rebuild replaces]
  rfl

theorem simplifyOrKeep_eq (deadline : Deadline) (e : Expr α) :
    e.simplifyOrKeep deadline = (e.unfold.simplifyOrKeep deadline).store := by
  rw [simplifyOrKeep, simplify_eq, Deadline.check, Tree.simplifyOrKeep]
  cases deadline.expired with
  | true => exact compact_eq e
  | false => rfl

end Walks

theorem settle_store (deadline : Deadline) (placeholder : Float) (turns : Nat) (t : Tree Float) :
    settle deadline placeholder turns t.store = t.settle deadline placeholder turns := by
  induction turns generalizing t with
  | zero => rw [settle, Tree.settle, substitute_eq, Tree.unfold_store, Tree.finish]
  | succ turns ih =>
      rw [settle, Tree.settle, substitute_eq, Tree.unfold_store]
      cases t.isReplaceable placeholder with
      | true =>
          dsimp only
          rw [simplifyOrKeep_eq, Tree.unfold_store]
          exact ih _
      | false => rfl

/-- Sanitization settles the simplified tree. -/
theorem sanitize_eq (e : Expr Float) (policy : SanitizePolicy) :
    e.sanitize policy = (do
      e.validate.mapError fun fault => .unsanitizable (.invalid fault)
      if 0 < e.paramCount then throw (.unsanitizable (.unboundParameters e.display))
      let deadline : Deadline := ⟨.simplify, policy.simplifyTimeoutMs⟩
      (e.unfold.simplifyOrKeep deadline).settle deadline policy.placeholder sanitizeTurns) := by
  rw [sanitize]
  simp only [simplifyOrKeep_eq, settle_store]

/-- What sanitization gives. -/
structure Sanitized (e : Expr Float) : Prop where
  valid : e.Valid
  regular : ∀ n, e.Reaches n → n.isDegenerate = false
  /-- There is no symbol left, not even for the circle number. -/
  symbol_free : ∀ s, ¬e.Reaches (.symbol s)

theorem Sanitized.hasDegenerate_eq {e : Expr Float} (sanitized : e.Sanitized) :
    e.hasDegenerate = false :=
  List.any_eq_false.mpr fun n member => by
    rw [sanitized.regular n (sanitized.valid.mem_reachable_iff.mp member)]
    exact Bool.false_ne_true

theorem finish_eq_ok {t : Tree Float} {s : Expr Float} (finished : t.finish = .ok s) :
    s = t.store ∧ s.Valid ∧ ∀ n, s.Reaches n → n.isDegenerate = false := by
  rw [Tree.finish, finish, bind_eq_ok_iff] at finished
  obtain ⟨_, accepted, finished⟩ := finished
  have valid : t.store.Valid := by
    refine (validate_eq_ok_iff _).mp ?_
    cases checked : t.store.validate with
    | error fault => simp [checked, Except.mapError] at accepted
    | ok _ => rfl
  cases degenerate : t.store.hasDegenerate with
  | true => simp [degenerate, throw, throwThe, MonadExceptOf.throw, bind, Except.bind] at finished
  | false =>
      obtain rfl : t.store = s := by
        simpa [degenerate, bind, Except.bind, pure, Except.pure] using finished
      refine ⟨rfl, valid, fun n reaches => ?_⟩
      rw [hasDegenerate, List.any_eq_false] at degenerate
      exact Bool.eq_false_iff.mpr (degenerate n (valid.mem_reachable_iff.mpr reaches))

theorem sanitized_of_settle {deadline : Deadline} {placeholder : Float} {turns : Nat}
    {t : Tree Float} {s : Expr Float} (settled : t.settle deadline placeholder turns = .ok s) :
    s.Sanitized := by
  -- A finished tree without the circle number has no symbol left, as every other is degenerate.
  have of_finish {t : Tree Float} (finished : t.finish = .ok s)
      (no_pi : .symbol .pi ∉ t.heads) : s.Sanitized := by
    obtain ⟨rfl, valid, regular⟩ := finish_eq_ok finished
    refine ⟨valid, regular, fun symbol reaches => no_pi ?_⟩
    have is_pi : symbol = .pi := by simpa [Node.isDegenerate] using regular _ reaches
    have member := reaches.head_mem_heads valid.ordered
    rwa [Tree.unfold_store, is_pi] at member
  induction turns generalizing t with
  | zero =>
      refine of_finish settled fun member => ?_
      rcases Tree.replacement?_of_mem_heads_substitute member with ⟨n, v, -, same⟩ | kept
      · cases same
      · cases kept
  | succ turns ih =>
      rw [Tree.settle] at settled
      split at settled
      · exact ih settled
      · rename_i settled_tree
        refine of_finish settled fun member => settled_tree ?_
        exact List.any_eq_true.mpr ⟨_, member, rfl⟩

/-- Sanitization gives a sanitized formula. -/
theorem sanitized_of_sanitize {policy : SanitizePolicy} {e s : Expr Float}
    (repaired : e.sanitize policy = .ok s) : s.Sanitized := by
  rw [sanitize_eq, bind_eq_ok_iff] at repaired
  obtain ⟨_, -, repaired⟩ := repaired
  split at repaired
  · cases repaired
  · exact sanitized_of_settle repaired

/-- Nothing in the formula is a function outside the vocabulary, a coefficient or a feature beyond
the columns of the data. -/
def IsClosed {α : Type} (featureCount : Nat) (e : Expr α) : Prop :=
  ∀ n ∈ e.reachable,
    match n with
    | .call .. | .param _ => False
    | .var i => i.toNat < featureCount
    | _ => True

theorem Sanitized.isClosed_iff {s : Expr Float} (sanitized : s.Sanitized) {featureCount : Nat} :
    s.IsClosed featureCount ↔
      (∀ n, s.Reaches n → n.isForeign featureCount = false) ∧ ∀ i, ¬s.Reaches (.param i) := by
  simp only [IsClosed, sanitized.valid.mem_reachable_iff]
  constructor
  · intro closed
    refine ⟨fun n reaches => ?_, fun i reaches => closed _ reaches⟩
    have regular := sanitized.regular n reaches
    have closed_n := closed n reaches
    cases n with
    | const v => exact regular
    | var i => exact decide_eq_false (Nat.not_le.mpr closed_n)
    | symbol s => exact absurd reaches (sanitized.symbol_free s)
    | relation op a b => cases regular
    | bounds a b => cases regular
    | call name args => exact closed_n.elim
    | _ => rfl
  · rintro ⟨native, param_free⟩ n reaches
    have native_n := native n reaches
    cases n with
    | var i => exact Nat.not_le.mp (of_decide_eq_false native_n)
    | param i => exact param_free i reaches
    | call name args => cases native_n
    | _ => trivial

end Expr

end FormulaFit
