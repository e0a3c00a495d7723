import FormulaFit.Proofs.Rewriting.Rules
import FormulaFit.Proofs.Scalar.Exact
import Mathlib.Data.List.Perm.Basic

/-!
# Simplification preserves values

The strict value of a tree in exact arithmetic is undefined as soon as anything in it is.  Where it
is defined, no operand is a degenerate symbol, so every rule of simplification stays within
arithmetic, and the simplified tree has the same value.
-/

namespace FormulaFit

/-- What simplification relies on: quotients by zero and powers outside the reals are undefined, and
powers with a neutral base or exponent are the expected ones. -/
class LawfulInterpretation (K : Type) [Field K] [LinearOrder K] [Interpretation K] : Prop where
  overZero?_eq_none : ∀ a : K, Interpretation.overZero? a = none
  pow?_zero : ∀ a : K, Interpretation.pow? a 0 = some 1
  pow?_one : ∀ a : K, Interpretation.pow? a 1 = some a
  one_pow? : ∀ b : K, Interpretation.pow? 1 b = some 1
  /-- Zero has no powers with a negative exponent. -/
  zero_pow?_neg : ∀ b : K, b < 0 → Interpretation.pow? 0 b = none
  /-- Negative numbers have only powers with an integral exponent. -/
  neg_pow? : ∀ a b : K, a < 0 → Interpretation.isIntegral b = false →
    Interpretation.pow? a b = none

/-- Values of the variables and coefficients of a formula. -/
structure Assignment (K : Type) where
  var : UInt64 → K
  param : UInt64 → K

variable {K : Type} [Field K] [LinearOrder K] [Interpretation K]

/-- The strict value of a node over those of its children. -/
def Node.strict? (a : Assignment K) : Node (Exact K) (Option K) → Option K
  | const v => v.real?
  | var i => some (a.var i)
  | param i => some (a.param i)
  | unary op x => do op.meaning? (← x)
  | binary op x y => do op.meaning? (← x) (← y)
  | nary op args => do op.meaning? (← args.mapM id)
  | symbol _ | relation .. | bounds .. | call .. => none

/-- The value of a tree, which is undefined as soon as anything in it is. -/
def Tree.strict? (a : Assignment K) : Tree (Exact K) → Option K := Tree.fold (Node.strict? a)

omit [Field K] [LinearOrder K] [Interpretation K] in
/-- All values are defined if and only if they are values. -/
theorem mapM_id_eq_some_iff {values : List (Option K)} {xs : List K} :
    values.mapM id = some xs ↔ values = xs.map some := by
  induction values generalizing xs with
  | nil => cases xs <;> simp
  | cons value values ih =>
      rw [List.mapM_cons]
      cases value with
      | none => cases xs <;> simp
      | some x =>
          cases xs with
          | nil => simp [Option.bind_eq_some_iff]
          | cons y xs =>
              simp only [id_eq, Option.bind_eq_bind, Option.bind_some, Option.bind_eq_some_iff, ih,
                Option.pure_def, Option.some.injEq, List.cons.injEq, List.map_cons]
              constructor
              · rintro ⟨_, rfl, rfl, rfl⟩
                exact ⟨rfl, rfl⟩
              · rintro ⟨rfl, rfl⟩
                exact ⟨xs, rfl, rfl, rfl⟩

namespace NaryOp

/-- One step of an operator of any number of operands. -/
def step : NaryOp → K → K → K
  | add, x, y => x + y
  | mul, x, y => x * y
  | max, x, y => Max.max x y
  | min, x, y => Min.min x y

omit [Interpretation K] in
theorem step_comm (op : NaryOp) (x y : K) : op.step x y = op.step y x := by
  cases op with
  | add => exact add_comm x y
  | mul => exact mul_comm x y
  | max => exact max_comm x y
  | min => exact min_comm x y

omit [Interpretation K] in
theorem step_assoc (op : NaryOp) (x y z : K) :
    op.step (op.step x y) z = op.step x (op.step y z) := by
  cases op with
  | add => exact add_assoc x y z
  | mul => exact mul_assoc x y z
  | max => exact max_assoc x y z
  | min => exact min_assoc x y z

instance (op : NaryOp) : Std.Commutative (op.step (K := K)) := ⟨op.step_comm⟩

instance (op : NaryOp) : Std.Associative (op.step (K := K)) := ⟨op.step_assoc⟩

omit [Interpretation K] in
@[simp]
theorem meaning?_singleton (op : NaryOp) (x : K) : op.meaning? [x] = some x := by
  cases op <;> simp [meaning?]

omit [Interpretation K] in
theorem meaning?_cons (op : NaryOp) (x : K) (xs : List K) :
    op.meaning? (x :: xs) = (some x).merge op.step (op.meaning? xs) := by
  cases op with
  | add => simp [meaning?, step]
  | mul => simp [meaning?, step]
  | max => cases found : xs.max? <;> simp [meaning?, List.max?_cons, found, step]
  | min => cases found : xs.min? <;> simp [meaning?, List.min?_cons, found, step]

omit [Interpretation K] in
theorem meaning?_append (op : NaryOp) (xs ys : List K) :
    op.meaning? (xs ++ ys) = (op.meaning? xs).merge op.step (op.meaning? ys) := by
  induction xs with
  | nil => cases op <;> simp [meaning?, step]
  | cons x xs ih =>
      rw [List.cons_append, meaning?_cons, meaning?_cons, ih]
      exact (@Std.Associative.assoc _ (Option.merge op.step) _ _ _ _).symm

omit [Interpretation K] in
theorem meaning?_perm (op : NaryOp) {xs ys : List K} (perm : xs.Perm ys) :
    op.meaning? xs = op.meaning? ys := by
  induction perm with
  | nil => rfl
  | cons x _ ih => rw [meaning?_cons, meaning?_cons, ih]
  | swap x y xs =>
      rw [meaning?_cons, meaning?_cons, meaning?_cons, meaning?_cons,
        ← @Std.Associative.assoc _ (Option.merge op.step),
        @Std.Commutative.comm _ (Option.merge op.step) _ (some y),
        @Std.Associative.assoc _ (Option.merge op.step)]
  | trans _ _ ih ih' => exact ih.trans ih'

end NaryOp

namespace Tree

theorem strict?_mk (a : Assignment K) (n : Node (Exact K) (Tree (Exact K))) :
    (mk n).strict? a = (n.map (strict? a)).strict? a := fold_mk _ n

@[simp]
theorem strict?_const (a : Assignment K) (v : K) : (const (Exact.real v)).strict? a = some v := rfl

theorem number_real (v : K) : number (Exact.real v) = const (Exact.real v) := rfl

theorem eq_of_literal? {a : Assignment K} {t : Tree (Exact K)} {w : Exact K} {x : K}
    (found : t.literal? = some w) (defined : t.strict? a = some x) :
    w = Exact.real x ∧ t = const (Exact.real x) := by
  obtain ⟨n⟩ := t
  cases n with
  | const v =>
      cases v with
      | real r =>
          obtain rfl : Exact.real r = w := Option.some.inj found
          obtain rfl : r = x := Option.some.inj defined
          exact ⟨rfl, rfl⟩
      | _ => simp [strict?_mk, Node.map, Node.strict?, Exact.real?] at defined
  | _ => simp [literal?, root, Node.literal?] at found

theorem eq_of_isLiteral {a : Assignment K} {t : Tree (Exact K)} {c x : K}
    (same : t.isLiteral (Exact.real c) = true) (defined : t.strict? a = some x) : x = c := by
  rw [isLiteral] at same
  split at same
  · rename_i w found
    rw [(eq_of_literal? found defined).1, Exact.eq_real] at same
    exact of_decide_eq_true same
  · cases same

theorem symbol?_eq_none {a : Assignment K} {t : Tree (Exact K)} {x : K}
    (defined : t.strict? a = some x) : t.symbol? = none := by
  obtain ⟨n⟩ := t
  cases n with
  | symbol s => simp [strict?_mk, Node.map, Node.strict?] at defined
  | _ => rfl

theorem foldUnary_real {op : UnaryOp} {x v : K} (defined : op.meaning? x = some v) :
    foldUnary op (Exact.real x) = const (Exact.real v) := by
  rw [foldUnary, UnaryOp.apply_real, defined]
  rfl

theorem simplifyUnary_strict? {a : Assignment K} {op : UnaryOp} {t : Tree (Exact K)} {x v : K}
    (operand : t.strict? a = some x) (defined : op.meaning? x = some v) :
    (simplifyUnary op t).strict? a = some v := by
  unfold simplifyUnary
  split
  · rename_i w found
    rw [(eq_of_literal? found operand).1, foldUnary_real defined, strict?_const]
  · split
    · rename_i inner _
      simp only [strict?_mk, Node.map, Node.strict?, Option.bind_eq_bind, Option.bind_eq_some_iff,
        UnaryOp.meaning?, Option.some.injEq] at operand
      obtain ⟨y, inner_eq, rfl⟩ := operand
      rw [inner_eq, ← defined, UnaryOp.meaning?, neg_neg]
    · rw [symbol?_eq_none operand]
      simp [strict?_mk, Node.map, Node.strict?, operand, defined]

variable [LawfulInterpretation K]

theorem foldBinary_real {op : BinaryOp} {x y v : K} (defined : op.meaning? x y = some v) :
    foldBinary op (Exact.real x) (Exact.real y) = const (Exact.real v) := by
  have applied := BinaryOp.apply_real op x y
  rw [defined] at applied
  cases op with
  | sub => exact (congrArg number applied).trans (number_real v)
  | div =>
      by_cases zero : y = 0
      · simp [BinaryOp.meaning?, Exact.div?, zero,
          LawfulInterpretation.overZero?_eq_none] at defined
      · simp only [foldBinary, Exact.zero_eq, Exact.eq_real, zero, decide_false, Bool.false_eq_true,
          if_false]
        exact (congrArg number applied).trans (number_real v)
  | pow =>
      have inside : (Scalar.eq (Exact.real x) 0 && Scalar.lt (Exact.real y) 0) = false := by
        by_contra outside
        simp only [Exact.zero_eq, Exact.eq_real, Exact.lt_real, Bool.not_eq_false, Bool.and_eq_true,
          decide_eq_true_eq] at outside
        obtain ⟨rfl, negative⟩ := outside
        rw [BinaryOp.meaning?, LawfulInterpretation.zero_pow?_neg y negative] at defined
        cases defined
      have real : (Scalar.lt (Exact.real x) 0 && !Scalar.isIntegral (Exact.real y)) = false := by
        by_contra outside
        simp only [Exact.zero_eq, Exact.lt_real, Bool.not_eq_false, Bool.and_eq_true,
          decide_eq_true_eq, Bool.not_eq_true'] at outside
        obtain ⟨negative, fractional⟩ := outside
        rw [BinaryOp.meaning?, LawfulInterpretation.neg_pow? x y negative fractional] at defined
        cases defined
      simp only [foldBinary, inside, real, Bool.false_eq_true, if_false]
      exact (congrArg number applied).trans (number_real v)

omit [LawfulInterpretation K] in
theorem eq_of_cancels {a : Assignment K} {t u : Tree (Exact K)} {x y : K}
    (cancel : cancels t u = true) (left : t.strict? a = some x) (right : u.strict? a = some y) :
    x = y := by
  rw [cancels, Bool.and_eq_true] at cancel
  rw [of_decide_eq_true cancel.2] at left
  exact Option.some.inj (left.symm.trans right)

omit [LawfulInterpretation K] in
theorem strict?_binary {a : Assignment K} {op : BinaryOp} {t u : Tree (Exact K)} {x y : K}
    (left : t.strict? a = some x) (right : u.strict? a = some y) :
    (mk (.binary op t u)).strict? a = op.meaning? x y := by
  simp [strict?_mk, Node.map, Node.strict?, left, right]

omit [LawfulInterpretation K] in
theorem simplifySub_strict? {a : Assignment K} {t u : Tree (Exact K)} {x y : K}
    (left : t.strict? a = some x) (right : u.strict? a = some y) :
    (simplifySub t u).strict? a = some (x - y) := by
  simp only [simplifySub, symbol?_eq_none left, reduceCtorEq, decide_false, Bool.false_and,
    Bool.false_eq_true, if_false]
  split
  · rename_i zero
    rw [eq_of_isLiteral zero right, left, sub_zero]
  · split
    · rename_i zero
      refine simplifyUnary_strict? right ?_
      rw [eq_of_isLiteral zero left, zero_sub]
      rfl
    · split
      · rename_i cancel
        rw [eq_of_cancels cancel left right, sub_self]
        rfl
      · exact strict?_binary left right

theorem simplifyDiv_strict? {a : Assignment K} {t u : Tree (Exact K)} {x y v : K}
    (left : t.strict? a = some x) (right : u.strict? a = some y)
    (defined : BinaryOp.div.meaning? x y = some v) : (simplifyDiv t u).strict? a = some v := by
  have nonzero : y ≠ 0 := by
    intro zero
    simp [BinaryOp.meaning?, Exact.div?, zero, LawfulInterpretation.overZero?_eq_none] at defined
  have quotient_eq : x / y = v := by
    simpa [BinaryOp.meaning?, Exact.div?, nonzero] using defined
  unfold simplifyDiv
  split
  · rename_i one
    rw [left, ← quotient_eq, eq_of_isLiteral one right, div_one]
  · split
    · rename_i zero
      exact absurd (eq_of_isLiteral zero right) nonzero
    · split
      · rename_i zero
        rw [Bool.and_eq_true] at zero
        rw [← quotient_eq, eq_of_isLiteral zero.1 left, zero_div]
        rfl
      · split
        · rename_i cancel
          rw [← quotient_eq, eq_of_cancels cancel left right, div_self nonzero]
          rfl
        · rw [strict?_binary left right, defined]

theorem simplifyPow_strict? {a : Assignment K} {t u : Tree (Exact K)} {x y v : K}
    (left : t.strict? a = some x) (right : u.strict? a = some y)
    (defined : BinaryOp.pow.meaning? x y = some v) : (simplifyPow t u).strict? a = some v := by
  unfold simplifyPow
  split
  · rename_i one
    rw [eq_of_isLiteral one right, BinaryOp.meaning?, LawfulInterpretation.pow?_one] at defined
    rw [left, defined]
  · split
    · rename_i neutral
      have one : v = 1 := by
        rw [Bool.or_eq_true] at neutral
        rcases neutral with zero | one
        · rw [eq_of_isLiteral zero right, BinaryOp.meaning?,
            LawfulInterpretation.pow?_zero] at defined
          exact (Option.some.inj defined).symm
        · rw [eq_of_isLiteral one left, BinaryOp.meaning?, LawfulInterpretation.one_pow?] at defined
          exact (Option.some.inj defined).symm
      rw [one]
      rfl
    · rw [strict?_binary left right, defined]

theorem simplifyBinary_strict? {a : Assignment K} {op : BinaryOp} {t u : Tree (Exact K)} {x y v : K}
    (left : t.strict? a = some x) (right : u.strict? a = some y)
    (defined : op.meaning? x y = some v) : (simplifyBinary op t u).strict? a = some v := by
  unfold simplifyBinary
  simp only [symbol?_eq_none left, symbol?_eq_none right, reduceCtorEq, decide_false, Bool.or_self,
    Bool.false_eq_true, if_false]
  split
  · rename_i w z found found'
    rw [(eq_of_literal? found left).1, (eq_of_literal? found' right).1, foldBinary_real defined,
      strict?_const]
  · cases op with
    | sub =>
        rw [simplifySub_strict? left right]
        exact defined
    | div => exact simplifyDiv_strict? left right defined
    | pow => exact simplifyPow_strict? left right defined

section Operands

omit [LawfulInterpretation K]

/-- An operator of any number of operands has a value if and only if the operands have. -/
theorem strict?_nary_eq_some_iff {a : Assignment K} {op : NaryOp} {ts : List (Tree (Exact K))}
    {v : K} :
    (mk (.nary op ts)).strict? a = some v ↔
      ∃ xs, ts.map (strict? a) = xs.map some ∧ op.meaning? xs = some v := by
  simp only [strict?_mk, Node.map, Node.strict?, Option.bind_eq_bind, Option.bind_eq_some_iff,
    mapM_id_eq_some_iff]

/-- Operands of the same operator may take the place of the operator. -/
theorem exists_flatten_values {a : Assignment K} (op : NaryOp) {ts : List (Tree (Exact K))}
    {xs : List K} (values : ts.map (strict? a) = xs.map some) :
    ∃ ys, (flatten op ts).map (strict? a) = ys.map some ∧ op.meaning? ys = op.meaning? xs := by
  induction ts generalizing xs with
  | nil =>
      obtain rfl : xs = [] := by simpa using values.symm
      exact ⟨[], rfl, rfl⟩
  | cons t ts ih =>
      obtain ⟨x, xs, rfl, value, later⟩ := List.map_eq_cons_iff.mp values.symm
      have head := value.symm
      obtain ⟨ys, flat, meaning_eq⟩ := ih later.symm
      have group : ∃ zs, (flatten op [t]).map (strict? a) = zs.map some ∧
          op.meaning? zs = some x := by
        have single : ∃ zs, [t].map (strict? a) = zs.map some ∧ op.meaning? zs = some x :=
          ⟨[x], by simpa using head, op.meaning?_singleton x⟩
        obtain ⟨n⟩ := t
        cases n with
        | nary inner children =>
            by_cases same : inner = op
            · subst same
              simpa [flatten] using strict?_nary_eq_some_iff.mp head
            · simpa [flatten, same] using single
        | _ => exact single
      obtain ⟨zs, head_eq, zs_meaning⟩ := group
      refine ⟨zs ++ ys, ?_, ?_⟩
      · have split_eq : flatten op (t :: ts) = flatten op [t] ++ flatten op ts := by
          simp [flatten]
        rw [split_eq, List.map_append, head_eq, flat, List.map_append]
      · rw [op.meaning?_append, zs_meaning, meaning_eq, op.meaning?_cons]

theorem exists_literal_values {a : Assignment K} {ts : List (Tree (Exact K))} {xs : List K}
    (values : ts.map (strict? a) = xs.map some) :
    ∃ ls rs, ts.filterMap literal? = ls.map Exact.real ∧
      (ts.filter fun t => t.literal?.isNone).map (strict? a) = rs.map some ∧
      xs.Perm (ls ++ rs) := by
  induction ts generalizing xs with
  | nil =>
      obtain rfl : xs = [] := by simpa using values.symm
      exact ⟨[], [], rfl, rfl, .nil⟩
  | cons t ts ih =>
      obtain ⟨x, xs, rfl, value, later⟩ := List.map_eq_cons_iff.mp values.symm
      have head := value.symm
      obtain ⟨ls, rs, literals, rest, perm⟩ := ih later.symm
      cases found : t.literal? with
      | some w =>
          obtain rfl := (eq_of_literal? found head).1
          exact ⟨x :: ls, rs, by simp [found, literals], by simpa [found] using rest, perm.cons x⟩
      | none =>
          refine ⟨ls, x :: rs, by simp [found, literals], ?_, ?_⟩
          · simpa [found, head] using rest
          · exact (perm.cons x).trans List.perm_middle.symm

theorem gather_strict? {a : Assignment K} {op : NaryOp} {ts : List (Tree (Exact K))} {xs : List K}
    {v : K} (values : ts.map (strict? a) = xs.map some) (defined : op.meaning? xs = some v) :
    (gather op ts).strict? a = some v := by
  unfold gather
  split
  · obtain rfl : xs = [] := by simpa using values.symm
    cases op with
    | add => exact defined
    | mul => exact defined
    | max => simp [NaryOp.meaning?] at defined
    | min => simp [NaryOp.meaning?] at defined
  · rename_i t
    obtain ⟨x, rfl⟩ : ∃ x, xs = [x] := by
      have length_eq := congrArg List.length values
      exact List.length_eq_one_iff.mp (by simpa using length_eq.symm)
    have head : t.strict? a = some x := by simpa using values
    rw [head, ← defined, op.meaning?_singleton]
  · exact strict?_nary_eq_some_iff.mpr ⟨xs, values, defined⟩

theorem symbols_eq_nil {a : Assignment K} {ts : List (Tree (Exact K))} {xs : List K}
    (values : ts.map (strict? a) = xs.map some) : ts.filterMap symbol? = [] := by
  rw [List.filterMap_eq_nil_iff]
  intro t member
  obtain ⟨x, -, x_eq⟩ := List.mem_map.mp (values ▸ List.mem_map_of_mem member)
  exact symbol?_eq_none x_eq.symm

/-- A neutral value leaves the value of the other operands. -/
theorem step_of_isNeutral {op : NaryOp} {w : K} (neutral : isNeutral op (Exact.real w) = true)
    (r : K) : op.step w r = r := by
  cases op with
  | add =>
      have zero : w = 0 := by
        simpa [isNeutral, NaryOp.identity, Exact.zero_eq] using neutral
      rw [zero, NaryOp.step, zero_add]
  | mul =>
      have one : w = 1 := by
        simpa [isNeutral, NaryOp.identity, Exact.one_eq] using neutral
      rw [one, NaryOp.step, one_mul]
  | max => simp [isNeutral] at neutral
  | min => simp [isNeutral] at neutral

theorem combine_strict? {a : Assignment K} {op : NaryOp} {ts : List (Tree (Exact K))} {xs : List K}
    {v : K} (values : ts.map (strict? a) = xs.map some) (defined : op.meaning? xs = some v) :
    (combine op ts).strict? a = some v := by
  obtain ⟨ls, rs, literals, rest, perm⟩ := exists_literal_values values
  rw [op.meaning?_perm perm] at defined
  simp only [combine, literals, symbols_eq_nil values]
  cases ls with
  | nil => exact gather_strict? rest defined
  | cons l ls =>
      obtain ⟨w, folded⟩ : ∃ w, op.meaning? (l :: ls) = some w := by
        rw [op.meaning?_cons]
        cases op.meaning? ls <;> simp
      rw [op.meaning?_append, folded] at defined
      rw [NaryOp.fold_real folded]
      simp only [List.map_cons, List.isEmpty_cons, Bool.false_eq_true, if_false, List.any_nil]
      split
      · rename_i zero
        simp only [Bool.and_eq_true, decide_eq_true_eq, Exact.zero_eq, Exact.eq_real] at zero
        obtain ⟨rfl, rfl⟩ := zero
        have product_zero : v = 0 := by
          have merged : (some (0 : K)).merge NaryOp.mul.step (some rs.prod) = some v := defined
          rw [Option.merge_some_some, NaryOp.step, zero_mul] at merged
          exact (Option.some.inj merged).symm
        rw [product_zero]
        rfl
      · split
        · rename_i neutral
          rw [Bool.and_eq_true] at neutral
          cases others : op.meaning? rs with
          | none =>
              -- Only sums and products have neutral values, and these are defined.
              cases op with
              | add => simp [NaryOp.meaning?] at others
              | mul => simp [NaryOp.meaning?] at others
              | max => simp [isNeutral] at neutral
              | min => simp [isNeutral] at neutral
          | some r =>
              rw [others, Option.merge_some_some, step_of_isNeutral neutral.1] at defined
              exact gather_strict? rest (others.trans defined)
        · rw [number_real]
          refine gather_strict? (by rw [List.map_cons, rest, strict?_const, ← List.map_cons]) ?_
          rw [op.meaning?_cons, defined]

theorem simplifyNary_strict? {a : Assignment K} {op : NaryOp} {ts : List (Tree (Exact K))}
    {xs : List K} {v : K} (values : ts.map (strict? a) = xs.map some)
    (defined : op.meaning? xs = some v) : (simplifyNary op ts).strict? a = some v := by
  obtain ⟨ys, flat, meaning_eq⟩ := exists_flatten_values op values
  simp only [simplifyNary, symbols_eq_nil flat, List.contains_nil, Bool.false_eq_true, if_false,
    Bool.and_false]
  exact combine_strict? flat (meaning_eq.trans defined)

end Operands

/-- Every rule of simplification preserves the value of a node over its children. -/
theorem reduce_strict? {a : Assignment K} {n : Node (Exact K) (Tree (Exact K))} {v : K}
    (defined : (n.map (strict? a)).strict? a = some v) : (reduce n).strict? a = some v := by
  cases n with
  | const w =>
      cases w with
      | real r => exact defined
      | _ => simp [Node.map, Node.strict?, Exact.real?] at defined
  | var i => exact defined
  | param i => exact defined
  | unary op t =>
      simp only [Node.map, Node.strict?, Option.bind_eq_bind, Option.bind_eq_some_iff] at defined
      obtain ⟨x, operand, defined⟩ := defined
      exact simplifyUnary_strict? operand defined
  | binary op t u =>
      simp only [Node.map, Node.strict?, Option.bind_eq_bind, Option.bind_eq_some_iff] at defined
      obtain ⟨x, left, y, right, defined⟩ := defined
      exact simplifyBinary_strict? left right defined
  | nary op ts =>
      obtain ⟨xs, values, defined⟩ := strict?_nary_eq_some_iff.mp ((strict?_mk a _).trans defined)
      exact simplifyNary_strict? values defined
  | _ => simp [Node.map, Node.strict?] at defined

omit [LawfulInterpretation K] in
theorem strict?_congr {β γ : Type} {a : Assignment K} {n : Node (Exact K) β} {f : β → Option K}
    {g : β → γ} {h : γ → Option K} {v : K} (defined : (n.map f).strict? a = some v)
    (agree : ∀ c ∈ n.children, ∀ x, f c = some x → h (g c) = some x) :
    ((n.map g).map h).strict? a = some v := by
  have each {cs : List β} {xs : List K} (agree : ∀ c ∈ cs, ∀ x, f c = some x → h (g c) = some x)
      (values : cs.map f = xs.map some) : (cs.map g).map h = xs.map some := by
    induction cs generalizing xs with
    | nil => simpa using values
    | cons c cs ih =>
        cases xs with
        | nil => simp at values
        | cons x xs =>
            obtain ⟨head, tail⟩ := List.cons.inj values
            rw [List.map_cons, List.map_cons, agree c (by simp) x head,
              ih (fun c member => agree c (List.mem_cons_of_mem _ member)) tail, List.map_cons]
  cases n with
  | unary op c =>
      simp only [Node.map, Node.strict?, Option.bind_eq_bind, Option.bind_eq_some_iff] at defined ⊢
      obtain ⟨x, operand, defined⟩ := defined
      exact ⟨x, agree c (by simp [Node.children]) x operand, defined⟩
  | binary op c d =>
      simp only [Node.map, Node.strict?, Option.bind_eq_bind, Option.bind_eq_some_iff] at defined ⊢
      obtain ⟨x, left, y, right, defined⟩ := defined
      exact ⟨x, agree c (by simp [Node.children]) x left, y,
        agree d (by simp [Node.children]) y right, defined⟩
  | nary op cs =>
      simp only [Node.map, Node.strict?, Option.bind_eq_bind, Option.bind_eq_some_iff,
        mapM_id_eq_some_iff] at defined ⊢
      obtain ⟨xs, values, defined⟩ := defined
      exact ⟨xs, each agree values, defined⟩
  | const w => exact defined
  | var i => exact defined
  | param i => exact defined
  | _ => simp [Node.map, Node.strict?] at defined

/-- Simplification preserves the value of a tree. -/
theorem simplify_strict? {a : Assignment K} {t : Tree (Exact K)} {v : K}
    (defined : t.strict? a = some v) : t.simplify.strict? a = some v := by
  induction t using Tree.induction generalizing v with
  | step n ih =>
      rw [strict?_mk] at defined
      rw [simplify, fold_mk]
      exact reduce_strict? (strict?_congr defined fun c member x found => ih c member found)

end Tree

/-- Simplification preserves values: where every operation of a formula stays within its domain, the
simplified form has the same value. -/
theorem Expr.simplify_preserves_value [LawfulInterpretation K] (deadline : Deadline)
    (unexpired : deadline.expired = false) (e : Expr (Exact K)) (a : Assignment K) (v : K)
    (defined : e.unfold.strict? a = some v) :
    ∃ simplified, e.simplify deadline = .ok simplified ∧ simplified.unfold.strict? a = some v := by
  refine ⟨e.unfold.simplify.store, simplify_eq_ok unexpired, ?_⟩
  rw [Tree.unfold_store]
  exact Tree.simplify_strict? defined

theorem rationalInterpretation_lawful : @LawfulInterpretation ℚ _ _ rationalInterpretation :=
  let := rationalInterpretation
  { overZero?_eq_none := fun _ => rfl
    pow?_zero := fun a => by simp [Interpretation.pow?]
    pow?_one := fun a => by simp [Interpretation.pow?]
    one_pow? := fun b => by simp [Interpretation.pow?]
    zero_pow?_neg := fun b negative => by simp [Interpretation.pow?, negative]
    neg_pow? := fun a b negative fractional => by
      have other : a ≠ 1 := by rintro rfl; exact absurd negative (by decide)
      have fraction : b.den ≠ 1 := by simpa [Interpretation.isIntegral] using fractional
      simp [Interpretation.pow?, other, fraction] }

/-- A formula in which literals fold, a shared quotient cancels and a neutral summand disappears. -/
def Expr.cancellingQuotient : Expr (Exact ℚ) :=
  ⟨#[.var 0, .param 0, .binary .div 0 1, .binary .sub 2 2, .const (Exact.real 2),
    .nary .mul [4, 4, 0], .nary .add [3, 5]], 6⟩

theorem Expr.cancellingQuotient_simplifies :
    letI := rationalInterpretation
    Deadline.expired ⟨.simplify, 5⟩ = false ∧ LawfulInterpretation ℚ ∧
      Expr.cancellingQuotient.unfold.strict? ⟨fun _ => 3, fun _ => 1⟩ = some 12 ∧
      ∃ simplified, Expr.cancellingQuotient.simplify ⟨.simplify, 5⟩ = .ok simplified ∧
        simplified.unfold.strict? ⟨fun _ => 3, fun _ => 1⟩ = some 12 := by
  let := rationalInterpretation
  have lawful : LawfulInterpretation ℚ := rationalInterpretation_lawful
  have unexpired : Deadline.expired ⟨.simplify, 5⟩ = false := rfl
  have defined : Expr.cancellingQuotient.unfold.strict? ⟨fun _ => 3, fun _ => 1⟩ = some 12 := by
    decide +kernel
  exact ⟨unexpired, lawful, defined,
    Expr.simplify_preserves_value ⟨.simplify, 5⟩ unexpired Expr.cancellingQuotient _ 12 defined⟩

end FormulaFit
