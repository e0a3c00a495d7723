import FormulaFit.Proofs.Rewriting.NormalForm
import FormulaFit.Proofs.Rewriting.Repair

/-!
# Sanitizing twice

A repaired formula is left alone by another repair if the turns sufficed: then the last form is
simplified and plain, hence in normal form.  If they ran out, the last form is one with literals in
the place of what simplification brought in again, and they may fold in another repair.
-/

namespace FormulaFit

namespace Tree

theorem not_isReplaceable_iff {placeholder : Float} {t : Tree Float} :
    t.isReplaceable placeholder = false ↔
      ∀ h ∈ t.heads, replacement? placeholder h = none := by
  rw [isReplaceable, List.any_eq_false]
  simp

theorem isPlain_of_replacement? {β : Type} {placeholder : Float} {n : Node Float β}
    (kept : replacement? placeholder n = none) : n.IsPlain := by
  cases n with
  | const v =>
      have finite : Scalar.isFinite v = true := by
        simpa [replacement?, Node.isDegenerate] using kept
      exact finite
  | symbol s => cases s <;> cases kept
  | relation op a b => cases kept
  | bounds a b => cases kept
  | _ => trivial

variable {placeholder : Float} {t : Tree Float}

theorem plain_and_substitute_eq (settled : t.isReplaceable placeholder = false) :
    t.Plain ∧ t.substitute placeholder = t := by
  rw [not_isReplaceable_iff] at settled
  induction t using Tree.induction with
  | step n ih =>
      rw [heads_mk] at settled
      obtain ⟨head, later⟩ := List.forall_mem_cons.mp settled
      rw [replacement?_head] at head
      have each : ∀ t ∈ n.children, t.Plain ∧ t.substitute placeholder = t := fun t is_child =>
        ih t is_child fun h member => later h (List.mem_flatMap.mpr ⟨t, is_child, member⟩)
      have children_eq : n.map (substitute placeholder) = n := by
        refine (Node.map_congr fun t is_child => (each t is_child).2).trans ?_
        cases n <;> simp [Node.map]
      refine ⟨.mk (isPlain_of_replacement? head) fun t is_child => (each t is_child).1, ?_⟩
      rw [substitute_mk, head, children_eq]

/-- One turn: replacement, then simplification. -/
def turn (placeholder : Float) (t : Tree Float) : Tree Float :=
  (t.substitute placeholder).simplify

/-- The formula needs no replacement after some turn. -/
def Settles (placeholder : Float) (turns : Nat) (t : Tree Float) : Prop :=
  ∃ k ≤ turns, ((turn placeholder)^[k] t.simplify).isReplaceable placeholder = false

end Tree

namespace Expr

/-- If the turns suffice, they end with a simplified form that needs no replacement. -/
theorem exists_simplified_of_settle {deadline : Deadline} (unexpired : deadline.expired = false)
    {placeholder : Float} {turns : Nat} {t : Tree Float} (settles : t.Settles placeholder turns)
    {s : Expr Float} (settled : t.simplify.settle deadline placeholder turns = .ok s) :
    ∃ u : Tree Float, u.simplify.isReplaceable placeholder = false ∧
      u.simplify.finish = .ok s := by
  induction turns generalizing t with
  | zero =>
      obtain ⟨k, k_le, quiet⟩ := settles
      obtain rfl := Nat.le_zero.mp k_le
      rw [Function.iterate_zero_apply] at quiet
      rw [Tree.settle, (Tree.plain_and_substitute_eq quiet).2] at settled
      exact ⟨t, quiet, settled⟩
  | succ turns ih =>
      obtain ⟨k, k_le, quiet⟩ := settles
      rw [Tree.settle] at settled
      cases replaceable : t.simplify.isReplaceable placeholder with
      | false =>
          rw [replaceable] at settled
          exact ⟨t, replaceable, settled⟩
      | true =>
          rw [replaceable, if_pos rfl, Tree.simplifyOrKeep, unexpired] at settled
          cases k with
          | zero => exact absurd (quiet.symm.trans replaceable) Bool.false_ne_true
          | succ k =>
              rw [Function.iterate_succ_apply] at quiet
              exact ih ⟨k, Nat.le_of_succ_le_succ k_le, quiet⟩ settled

/-- A repair whose turns suffice is complete: another one leaves its result as it is. -/
theorem sanitize_of_settles (policy : SanitizePolicy) (e s : Expr Float)
    (accepted : e.validate = .ok ()) (bound : ∀ i, ¬e.Reaches (.param i))
    (finite : policy.placeholder.isFinite = true) (unexpired : policy.simplifyTimeoutMs ≠ 0)
    (settles : e.unfold.Settles policy.placeholder sanitizeTurns)
    (repaired : e.sanitize policy = .ok s) : s.sanitize policy = .ok s := by
  have running : Deadline.expired ⟨.simplify, policy.simplifyTimeoutMs⟩ = false := by
    simpa [Deadline.expired] using unexpired
  have repairs := repairs_of_sanitize policy accepted bound finite repaired
  rw [sanitize_eq, accepted, paramCount_eq_zero ((validate_eq_ok_iff e).mp accepted) bound]
    at repaired
  change Tree.settle _ _ _ (Tree.simplifyOrKeep _ _) = _ at repaired
  rw [Tree.simplifyOrKeep, running] at repaired
  obtain ⟨u, quiet, finished⟩ := exists_simplified_of_settle running settles repaired
  have valid := (validate_eq_ok_iff s).mp repairs.accepted
  have unfold_eq : s.unfold = u.simplify := by rw [(finish_eq_ok finished).1, Tree.unfold_store]
  have plain := (Tree.plain_and_substitute_eq quiet).1
  have simplified : u.simplify.simplify = u.simplify :=
    Tree.simplify_of_normal (u.settled_simplify plain) plain
  rw [sanitize_eq, repairs.accepted, paramCount_eq_zero valid repairs.param_free, unfold_eq]
  change Tree.settle _ _ _ (Tree.simplifyOrKeep _ _) = _
  rw [Tree.simplifyOrKeep, running]
  change Tree.settle _ _ (7 + 1) u.simplify.simplify = _
  rw [Tree.settle, simplified, quiet]
  exact finished

/-- The formula `zoo*x_0 + oo - sqrt(-1) + pi*x_0`, for which one turn suffices. -/
def unboundedSum : Expr Float :=
  ⟨#[.symbol .complexInf, .var 0, .nary .mul [0, 1], .symbol .posInf, .const (-1), .unary .sqrt 4,
    .symbol .pi, .nary .mul [6, 1], .nary .add [2, 3], .binary .sub 8 5, .nary .add [9, 7]], 10⟩

theorem unboundedSum_sanitized_twice :
    unboundedSum.validate = .ok () ∧ (∀ i, ¬unboundedSum.Reaches (.param i)) ∧
      (1 : Float).isFinite = true ∧ 5 ≠ 0 ∧ unboundedSum.unfold.Settles 1 sanitizeTurns ∧
      ∃ s, unboundedSum.sanitize ⟨5, 1⟩ = .ok s ∧ s.sanitize ⟨5, 1⟩ = .ok s := by
  have accepted : unboundedSum.validate = .ok () := by decide +kernel
  have bound : ∀ i, ¬unboundedSum.Reaches (.param i) := fun i reaches => by
    simpa [unboundedSum] using reaches.mem
  have finite : (1 : Float).isFinite = true := by decide +kernel
  have settles : unboundedSum.unfold.Settles 1 sanitizeTurns := ⟨1, by decide, by decide +kernel⟩
  obtain ⟨u, repaired, -⟩ := exists_sanitize_eq_ok ⟨5, 1⟩ accepted bound finite
  exact ⟨accepted, bound, finite, by decide, settles, u.store, repaired,
    sanitize_of_settles ⟨5, 1⟩ unboundedSum u.store accepted bound finite (by decide) settles
      repaired⟩

/-- The quotient `1/(1 - 1/(1 - … 1/0))`: every turn folds only its innermost level. -/
def nestedQuotient : (levels : Nat) → Tree Float
  | 0 => .mk (.binary .div (.const 1) (.const 0))
  | levels + 1 =>
    .mk (.binary .div (.const 1) (.mk (.binary .sub (.const 1) (nestedQuotient levels))))

/-- A repair that runs out of turns need not be complete. -/
theorem nestedQuotient_not_idempotent :
    (nestedQuotient 9).store.validate = .ok () ∧
      (∀ i, ¬(nestedQuotient 9).store.Reaches (.param i)) ∧ (1 : Float).isFinite = true ∧
      ∃ s t, (nestedQuotient 9).store.sanitize ⟨5, 1⟩ = .ok s ∧ s.sanitize ⟨5, 1⟩ = .ok t ∧
        t.same s = false := by
  have twice : (((nestedQuotient 9).store.sanitize ⟨5, 1⟩).toOption.bind fun s =>
      (s.sanitize ⟨5, 1⟩).toOption.map fun t => t.same s) = some false := by
    decide +kernel
  have param_free : ∀ n ∈ (nestedQuotient 9).store.nodes.toList, n.paramIndex? = none := by
    decide +kernel
  refine ⟨by decide +kernel, fun i reaches => ?_, by decide +kernel, ?_⟩
  · cases param_free _ reaches.mem
  · cases repaired : (nestedQuotient 9).store.sanitize ⟨5, 1⟩ with
    | error fault =>
        rw [repaired] at twice
        cases twice
    | ok s =>
        rw [repaired] at twice
        obtain ⟨t, again, differs⟩ := Option.map_eq_some_iff.mp twice
        cases again_eq : s.sanitize ⟨5, 1⟩ with
        | error fault =>
            rw [again_eq] at again
            cases again
        | ok t' =>
            rw [again_eq] at again
            cases again
            exact ⟨s, t, rfl, again_eq, differs⟩

end Expr

end FormulaFit
