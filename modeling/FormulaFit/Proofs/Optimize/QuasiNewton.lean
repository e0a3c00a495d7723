import FormulaFit.Proofs.Optimize.History
import FormulaFit.Proofs.Optimize.Vectors
import Mathlib.LinearAlgebra.Matrix.DotProduct
import Mathlib.LinearAlgebra.Matrix.Symmetric

/-!
# The inverse Hessian of the minimiser

Over an ordered field, the two loops multiply minus the gradient with a matrix that starts as a
multiple of the identity and takes in the stored pairs from the oldest to the newest.  It is
symmetric and positive definite, because every stored pair has positive curvature, so the direction
leads down; and it maps the change of the gradient in the newest pair to the displacement.
-/

/-- Square matrices.  Inside the library a matrix is a table of samples. -/
abbrev SquareMatrix (n : Nat) (K : Type) := Matrix (Fin n) (Fin n) K

section

open scoped Matrix

namespace FormulaFit
namespace Lbfgs

open Exact

variable {K : Type} {n : Nat}

/-- A displacement and the change of the gradient along it. -/
structure Secant (n : Nat) (K : Type) where
  s : Fin n → K
  y : Fin n → K

/-- A symmetric matrix whose quadratic form is positive. -/
structure IsPositive [Field K] [LinearOrder K] (H : SquareMatrix n K) : Prop where
  symm : H.IsSymm
  pos : ∀ v, v ≠ 0 → 0 < v ⬝ᵥ H *ᵥ v

namespace Secant

section Field

variable [Field K]

/-- The curvature along the displacement. -/
def curvature (p : Secant n K) : K := p.y ⬝ᵥ p.s

/-- The reciprocal of the curvature. -/
def rho (p : Secant n K) : K := 1 / p.curvature

/-- What is left of a vector without its share of the pair. -/
def rest (p : Secant n K) (v : Fin n → K) : Fin n → K := v - (p.rho * (p.s ⬝ᵥ v)) • p.y

/-- Takes the pair into an inverse Hessian. -/
def update (p : Secant n K) (H : SquareMatrix n K) : SquareMatrix n K :=
  (1 - p.rho • Matrix.vecMulVec p.s p.y) * H * (1 - p.rho • Matrix.vecMulVec p.y p.s) +
    p.rho • Matrix.vecMulVec p.s p.s

theorem rank_one_mulVec (c : K) (a b v : Fin n → K) :
    (c • Matrix.vecMulVec a b) *ᵥ v = (c * (b ⬝ᵥ v)) • a := by
  rw [Matrix.smul_mulVec, Matrix.vecMulVec_mulVec, op_smul_eq_smul, smul_smul]

/-- An updated matrix is applied to what is left of a vector, and the shares are put back. -/
theorem update_mulVec (p : Secant n K) (H : SquareMatrix n K) (v : Fin n → K) :
    p.update H *ᵥ v = H *ᵥ p.rest v +
      (p.rho * (p.s ⬝ᵥ v) - p.rho * (p.y ⬝ᵥ H *ᵥ p.rest v)) • p.s := by
  have rest_eq : (1 - p.rho • Matrix.vecMulVec p.y p.s) *ᵥ v = p.rest v := by
    rw [Matrix.sub_mulVec, Matrix.one_mulVec, rank_one_mulVec, rest]
  rw [update, Matrix.add_mulVec, ← Matrix.mulVec_mulVec, ← Matrix.mulVec_mulVec, rest_eq,
    Matrix.sub_mulVec, Matrix.one_mulVec, rank_one_mulVec, rank_one_mulVec, sub_smul]
  rw [sub_add_eq_add_sub, add_sub_assoc]

theorem dot_update_mulVec (p : Secant n K) (H : SquareMatrix n K) (v : Fin n → K) :
    v ⬝ᵥ p.update H *ᵥ v = p.rest v ⬝ᵥ H *ᵥ p.rest v + p.rho * (p.s ⬝ᵥ v) ^ 2 := by
  rw [update_mulVec, dotProduct_add, dotProduct_smul, smul_eq_mul]
  conv_rhs => rw [rest, sub_dotProduct, smul_dotProduct, smul_eq_mul, ← rest]
  rw [dotProduct_comm v p.s]
  ring

theorem isSymm_update (p : Secant n K) {H : SquareMatrix n K} (symm : H.IsSymm) :
    (p.update H).IsSymm := by
  rw [Matrix.IsSymm, update, Matrix.transpose_add, Matrix.transpose_mul, Matrix.transpose_mul,
    Matrix.transpose_sub, Matrix.transpose_sub, Matrix.transpose_smul, Matrix.transpose_smul,
    Matrix.transpose_smul, Matrix.transpose_vecMulVec, Matrix.transpose_vecMulVec,
    Matrix.transpose_vecMulVec, Matrix.transpose_one, symm.eq, Matrix.mul_assoc]

theorem update_mulVec_y (p : Secant n K) (curved : p.curvature ≠ 0) (H : SquareMatrix n K) :
    p.update H *ᵥ p.y = p.s := by
  have unit : p.rho * (p.s ⬝ᵥ p.y) = 1 := by
    rw [dotProduct_comm]
    exact one_div_mul_cancel curved
  have nothing : p.rest p.y = 0 := by rw [rest, unit, one_smul, sub_self]
  rw [update_mulVec, nothing, unit, Matrix.mulVec_zero, dotProduct_zero, mul_zero, sub_zero,
    one_smul, zero_add]

end Field

section Order

variable [Field K] [LinearOrder K] [IsStrictOrderedRing K]

theorem isPositive_update {p : Secant n K} (curved : 0 < p.curvature) {H : SquareMatrix n K}
    (positive : IsPositive H) : IsPositive (p.update H) where
  symm := p.isSymm_update positive.symm
  pos v nonzero := by
    have rho_pos : 0 < p.rho := one_div_pos.mpr curved
    rw [dot_update_mulVec]
    by_cases orthogonal : p.s ⬝ᵥ v = 0
    · have rest_eq : p.rest v = v := by rw [rest, orthogonal, mul_zero, zero_smul, sub_zero]
      rw [rest_eq, orthogonal, zero_pow two_ne_zero, mul_zero, add_zero]
      exact positive.pos v nonzero
    · have square_pos : 0 < p.rho * (p.s ⬝ᵥ v) ^ 2 :=
        mul_pos rho_pos (sq_pos_of_ne_zero orthogonal)
      refine add_pos_of_nonneg_of_pos ?_ square_pos
      by_cases nothing : p.rest v = 0
      · rw [nothing, zero_dotProduct]
      · exact (positive.pos _ nothing).le

theorem dot_y_pos {p : Secant n K} (curved : 0 < p.curvature) : 0 < p.y ⬝ᵥ p.y := by
  have nonzero : p.y ≠ 0 := by
    rintro zero
    rw [curvature, zero, zero_dotProduct] at curved
    exact lt_irrefl 0 curved
  exact lt_of_le_of_ne (Finset.sum_nonneg fun i _ => mul_self_nonneg _) fun zero =>
    nonzero (dotProduct_self_eq_zero.mp zero.symm)

end Order

end Secant

/-- The factor of the identity that an inverse Hessian starts from: it fits the newest pair. -/
def initialScale [Field K] (pairs : List (Secant n K)) : K :=
  match pairs.getLast? with
  | some p => p.curvature / (p.y ⬝ᵥ p.y)
  | none => 1

/-- The inverse Hessian that takes in the pairs from the oldest to the newest. -/
def inverseHessian [Field K] (pairs : List (Secant n K)) : SquareMatrix n K :=
  pairs.foldl (fun H p => p.update H) (initialScale pairs • 1)

section Positive

variable [Field K] [LinearOrder K] [IsStrictOrderedRing K] {pairs : List (Secant n K)}

theorem initialScale_pos (curved : ∀ p ∈ pairs, 0 < p.curvature) : 0 < initialScale pairs := by
  rw [initialScale]
  split
  · rename_i p newest
    have p_curved := curved p (List.mem_of_getLast? newest)
    exact div_pos p_curved (Secant.dot_y_pos p_curved)
  · exact one_pos

theorem isPositive_smul_one {c : K} (pos : 0 < c) : IsPositive (c • 1 : SquareMatrix n K) where
  symm := by rw [Matrix.IsSymm, Matrix.transpose_smul, Matrix.transpose_one]
  pos v nonzero := by
    rw [Matrix.smul_mulVec, Matrix.one_mulVec, dotProduct_smul, smul_eq_mul]
    refine mul_pos pos (lt_of_le_of_ne (Finset.sum_nonneg fun i _ => mul_self_nonneg _) fun zero =>
      nonzero (dotProduct_self_eq_zero.mp zero.symm))

theorem isPositive_inverseHessian (curved : ∀ p ∈ pairs, 0 < p.curvature) :
    IsPositive (inverseHessian pairs) := by
  have taken (H : SquareMatrix n K) (positive : IsPositive H) :
      IsPositive (pairs.foldl (fun H p => p.update H) H) := by
    induction pairs generalizing H with
    | nil => exact positive
    | cons p pairs ih =>
        obtain ⟨p_curved, curved⟩ := List.forall_mem_cons.mp curved
        exact ih curved _ (Secant.isPositive_update p_curved positive)
  exact taken _ (isPositive_smul_one (initialScale_pos curved))

omit [IsStrictOrderedRing K] in
theorem inverseHessian_mulVec_y (curved : ∀ p ∈ pairs, 0 < p.curvature) {p : Secant n K}
    (newest : pairs.getLast? = some p) : inverseHessian pairs *ᵥ p.y = p.s := by
  obtain ⟨older, rfl⟩ := List.getLast?_eq_some_iff.mp newest
  rw [inverseHessian, List.foldl_append]
  exact p.update_mulVec_y (curved p (by simp)).ne' _

end Positive

section Loops

variable {α : Type} [Scalar α]

omit [Scalar α] in
/-- Shares that are there before a loop that takes one of each pair stay behind those. -/
theorem foldr_shares {f : CurvaturePair α → List α × List α → List α × List α}
    (takes : ∀ pair q, ∃ rest share, ∀ shares, f pair (q, shares) = (rest, share :: shares))
    (history : List (CurvaturePair α)) (q shares : List α) :
    history.foldr f (q, shares) =
      ((history.foldr f (q, [])).1, (history.foldr f (q, [])).2 ++ shares) := by
  induction history with
  | nil => rfl
  | cons pair history ih =>
      rw [List.foldr_cons, List.foldr_cons, ih]
      obtain ⟨rest, share, taken⟩ := takes pair (history.foldr f (q, [])).1
      rw [taken, ← Prod.eta (history.foldr f (q, [])), taken]
      rfl

theorem removeShares_concat (history : List (CurvaturePair α)) (pair : CurvaturePair α)
    (q : List α) :
    removeShares (history ++ [pair]) q =
      let share := pair.rho * Scalar.dot pair.s q
      let later := removeShares history (combineWith (fun qi yi => qi - share * yi) q pair.y)
      (later.1, later.2 ++ [share]) := by
  rw [removeShares, List.foldr_append]
  exact foldr_shares (fun _ _ => ⟨_, _, fun _ => rfl⟩) history _ _

theorem restoreShares_concat {history : List (CurvaturePair α)} {shares : List α}
    (length_eq : shares.length = history.length) (pair : CurvaturePair α) (share : α)
    (q : List α) :
    restoreShares (history ++ [pair]) (shares ++ [share]) q =
      let older := restoreShares history shares q
      let correction := pair.rho * Scalar.dot pair.y older
      combineWith (fun qi si => qi + si * (share - correction)) older pair.s := by
  rw [restoreShares, List.zip_append length_eq.symm, List.foldl_append]
  rfl

end Loops

section Exact

variable [Field K] [LinearOrder K] [Interpretation K]

/-- The pair as the minimiser stores it. -/
def Secant.pair (p : Secant n K) : CurvaturePair (Exact K) :=
  ⟨vector p.s, vector p.y, real p.rho⟩

/-- The two loops apply the updates by the pairs to any matrix that stands between them. -/
theorem exists_removeShares (pairs : List (Secant n K)) (q : Fin n → K) :
    ∃ (rest : Fin n → K) (shares : List (Exact K)),
      removeShares (pairs.map Secant.pair) (vector q) = (vector rest, shares) ∧
        shares.length = (pairs.map Secant.pair).length ∧
        ∀ H : SquareMatrix n K,
          restoreShares (pairs.map Secant.pair) shares (vector (H *ᵥ rest)) =
            vector (pairs.foldl (fun H p => p.update H) H *ᵥ q) := by
  induction pairs using List.reverseRecOn generalizing q with
  | nil => exact ⟨q, [], rfl, rfl, fun H => rfl⟩
  | append_singleton pairs p ih =>
      obtain ⟨rest, shares, removed, length_eq, restored⟩ := ih (p.rest q)
      have share_eq : p.pair.rho * Scalar.dot p.pair.s (vector q) =
          real (p.rho * (p.s ⬝ᵥ q)) := congrArg (real p.rho * ·) (dot_vector p.s q)
      have rest_eq : combineWith (fun qi yi => qi - real (p.rho * (p.s ⬝ᵥ q)) * yi) (vector q)
          p.pair.y = vector (p.rest q) :=
        combineWith_vector (g := fun a b => a - p.rho * (p.s ⬝ᵥ q) * b) (fun a b => rfl) q p.y
      refine ⟨rest, shares ++ [real (p.rho * (p.s ⬝ᵥ q))], ?_, ?_, fun H => ?_⟩
      · rw [List.map_append, List.map_singleton, removeShares_concat]
        simp only [share_eq, rest_eq, removed]
      · simp only [List.map_append, List.length_append, length_eq, List.map_singleton,
          List.length_singleton]
      · have correction_eq (r : Fin n → K) : p.pair.rho * Scalar.dot p.pair.y (vector r) =
            real (p.rho * (p.y ⬝ᵥ r)) := congrArg (real p.rho * ·) (dot_vector p.y r)
        rw [List.map_append, List.map_singleton, restoreShares_concat length_eq, restored,
          List.foldl_append]
        simp only [correction_eq, real_sub, List.foldl_cons, List.foldl_nil]
        rw [Secant.update_mulVec]
        refine (combineWith_vector (g := fun a b => a + b * _) (fun a b => rfl) _ p.s).trans ?_
        refine congrArg vector (funext fun i => congrArg (_ + ·) (mul_comm _ _))

/-- The state holds pairs of positive curvature, and the scale that fits the newest one. -/
structure Holds (state : State (Exact K)) (pairs : List (Secant n K)) : Prop where
  history_eq : state.history = pairs.map Secant.pair
  curved : ∀ p ∈ pairs, 0 < p.curvature
  scale_eq : state.scale = real (initialScale pairs)

/-- The two loops give minus the gradient times the inverse Hessian of the pairs. -/
theorem Holds.twoLoop_eq {state : State (Exact K)} {pairs : List (Secant n K)}
    (holds : Holds state pairs) (gradient : Fin n → K) :
    twoLoop state (vector gradient) = vector (-(inverseHessian pairs *ᵥ gradient)) := by
  obtain ⟨rest, shares, removed, -, restored⟩ := exists_removeShares pairs (-gradient)
  have negated : (vector gradient).map (fun g => -g) = vector (-gradient) :=
    map_vector (g := fun g => -g) (fun a => rfl) gradient
  have scaled : (vector rest).map (fun qi => qi * real (initialScale pairs)) =
      vector ((initialScale pairs • (1 : SquareMatrix n K)) *ᵥ rest) := by
    rw [Matrix.smul_mulVec, Matrix.one_mulVec]
    refine (map_vector (g := fun a => a * initialScale pairs) (fun a => rfl) rest).trans ?_
    exact congrArg vector (funext fun i => mul_comm _ _)
  rw [twoLoop, holds.history_eq, negated, removed, holds.scale_eq]
  dsimp only
  rw [scaled, restored, ← inverseHessian, Matrix.mulVec_neg]

/-- The state after a step that has taken aim. -/
structure Aims (state : State (Exact K)) (rate : K) (direction gradient : Fin n → K) : Prop where
  started : state.iteration ≠ 0
  direction_eq : state.direction = vector direction
  gradient_eq : state.gradient = vector gradient
  stepSize_eq : state.stepSize = real rate

/-- A state that steps with gradients of one length lead to. -/
inductive Tracks (n : Nat) (state : State (Exact K)) : Prop where
  | fresh (unstarted : state.iteration = 0) (empty : state.history = [])
  | aimed {pairs : List (Secant n K)} {rate : K} {direction gradient : Fin n → K}
      (holds : Holds state pairs) (aims : Aims state rate direction gradient)

theorem curvatureThreshold_eq : (curvatureThreshold : Exact K) = real (1 / 10 ^ 10) := by
  change real (((1 : Nat) : K) / 10 ^ 10) = _
  rw [Nat.cast_one]

theorem real_div_of_ne_zero (a : K) {b : K} (nonzero : b ≠ 0) :
    real a / real b = real (a / b) := by
  rw [real_div, div?, if_neg nonzero]
  rfl

theorem dot_pair (p : Secant n K) : Scalar.dot p.pair.y p.pair.s = real p.curvature :=
  dot_vector p.y p.s

section Aims

variable {state : State (Exact K)} {rate : K} {direction gradient : Fin n → K}

/-- The displacement by a step, and the change of the gradient to the next one. -/
def Secant.along (rate : K) (direction gradient next : Fin n → K) : Secant n K :=
  ⟨rate • direction, next - gradient⟩

theorem Aims.pair_s (aims : Aims state rate direction gradient) (next : Fin n → K) :
    (state.pair (vector next)).s = vector (rate • direction) := by
  change state.direction.map (fun d => d * state.stepSize) = _
  rw [aims.direction_eq, aims.stepSize_eq]
  refine (map_vector (g := fun a => a * rate) (fun a => rfl) direction).trans ?_
  exact congrArg vector (funext fun i => mul_comm _ _)

theorem Aims.pair_y (aims : Aims state rate direction gradient) (next : Fin n → K) :
    (state.pair (vector next)).y = vector (next - gradient) := by
  change List.zipWith (· - ·) (vector next) state.gradient = _
  rw [aims.gradient_eq]
  exact zipWith_vector (g := fun a b => a - b) (fun a b => rfl) next gradient

theorem Aims.pair_eq (aims : Aims state rate direction gradient) {next : Fin n → K}
    (nonzero : (Secant.along rate direction gradient next).curvature ≠ 0) :
    state.pair (vector next) = (Secant.along rate direction gradient next).pair := by
  have rho_eq : (state.pair (vector next)).rho =
      real (Secant.along rate direction gradient next).rho := by
    change 1 / Scalar.dot (state.pair (vector next)).y (state.pair (vector next)).s = _
    rw [aims.pair_s, aims.pair_y, dot_vector, one_eq]
    exact real_div_of_ne_zero 1 nonzero
  calc
    state.pair (vector next) = ⟨(state.pair (vector next)).s, (state.pair (vector next)).y,
      (state.pair (vector next)).rho⟩ := rfl
    _ = (Secant.along rate direction gradient next).pair := by
      rw [aims.pair_s, aims.pair_y, rho_eq]
      rfl

theorem Aims.isAccepted_iff (aims : Aims state rate direction gradient) (next : Fin n → K) :
    (state.pair (vector next)).isAccepted = true ↔
      1 / 10 ^ 10 < (Secant.along rate direction gradient next).curvature := by
  rw [CurvaturePair.isAccepted, aims.pair_s, aims.pair_y, dot_vector, curvatureThreshold_eq,
    lt_real, decide_eq_true_eq]
  rfl

end Aims

end Exact

section Steps

variable [Field K] [LinearOrder K] [IsStrictOrderedRing K] [Interpretation K]
  {state : State (Exact K)} {pairs : List (Secant n K)} {rate : K} {direction gradient : Fin n → K}

omit [LinearOrder K] [IsStrictOrderedRing K] [Interpretation K] in
theorem initialScale_concat (pairs : List (Secant n K)) (p : Secant n K) :
    initialScale (pairs ++ [p]) = p.curvature / (p.y ⬝ᵥ p.y) := by
  rw [initialScale, List.getLast?_concat]

/-- What a state learns from a gradient keeps the pairs it holds, but perhaps the oldest, and adds
at most one. -/
theorem Holds.learn (holds : Holds state pairs) (aims : Aims state rate direction gradient)
    (size : Nat) (next : Fin n → K) :
    ∃ pairs : List (Secant n K), Holds (state.learn size (vector next)) pairs := by
  rw [State.learn_eq]
  split
  · rename_i accepted
    have curved : 0 < (Secant.along rate direction gradient next).curvature :=
      lt_trans (by positivity) ((aims.isAccepted_iff next).mp accepted)
    rw [aims.pair_eq curved.ne']
    generalize Secant.along rate direction gradient next = p at curved
    refine ⟨(if pairs.length = size then pairs.drop 1 else pairs) ++ [p], ?_, ?_, ?_⟩
    · dsimp only
      rw [remember, holds.history_eq, List.length_map, List.map_append, List.map_singleton]
      split
      · rw [List.map_drop]
      · rfl
    · intro older member
      rcases List.mem_append.mp member with member | member
      · split at member
        · exact holds.curved older (List.mem_of_mem_drop member)
        · exact holds.curved older member
      · obtain rfl := List.mem_singleton.mp member
        exact curved
    · dsimp only
      rw [dot_pair, initialScale_concat]
      exact (congrArg (real p.curvature / ·) (dot_vector p.y p.y)).trans
        (real_div_of_ne_zero _ (Secant.dot_y_pos curved).ne')
  · exact ⟨pairs, holds⟩

omit [IsStrictOrderedRing K] in
theorem exists_min_one (quotient : Option K) (rate : K) :
    ∃ r, Scalar.min (ofOption quotient) 1 * real rate = real r := by
  cases quotient with
  | none => exact ⟨1 * rate, rfl⟩
  | some v =>
      rw [ofOption, one_eq, min_real]
      exact ⟨_, real_mul _ _⟩

theorem Tracks.aim (tracks : Tracks n state) {settings : Settings (Exact K)} {rate : K}
    (rate_eq : settings.learningRate = real rate) (gradient : Fin n → K) :
    ∃ (pairs : List (Secant n K)) (rate : K),
      Holds (state.aim settings (vector gradient)) pairs ∧
        Aims (state.aim settings (vector gradient)) rate (-(inverseHessian pairs *ᵥ gradient))
          gradient := by
  cases tracks with
  | fresh unstarted empty =>
      have absolute : (vector gradient).map Scalar.abs = vector fun i => |gradient i| :=
        map_vector (fun a => rfl) gradient
      have negated : (vector gradient).map (fun g => -g) = vector (-gradient) :=
        map_vector (g := fun g => -g) (fun a => rfl) gradient
      have start_eq : inverseHessian ([] : List (Secant n K)) *ᵥ gradient = gradient := by
        rw [inverseHessian, List.foldl_nil, initialScale, List.getLast?_nil, one_smul,
          Matrix.one_mulVec]
      obtain ⟨first, first_eq⟩ := exists_min_one (div? 1 (0 + ∑ i, |gradient i|)) rate
      refine ⟨[], first, ⟨?_, by simp, ?_⟩, ⟨?_, ?_, ?_, ?_⟩⟩
      all_goals rw [State.aim, if_pos unstarted]
      · exact empty
      · rfl
      · exact Nat.one_ne_zero
      · rw [negated, start_eq]
      · dsimp only
        rw [absolute, Scalar.sum, zero_eq, sum_vector, one_eq, real_div, ← one_eq, rate_eq,
          first_eq]
  | @aimed pairs _ direction _ holds aims =>
      obtain ⟨pairs, holds⟩ := holds.learn aims settings.historySize gradient
      refine ⟨pairs, rate, ⟨?_, holds.curved, ?_⟩, ⟨?_, ?_, ?_, ?_⟩⟩
      all_goals rw [State.aim, if_neg aims.started]
      · exact holds.history_eq
      · exact holds.scale_eq
      · exact Nat.succ_ne_zero _
      · exact holds.twoLoop_eq gradient
      · exact rate_eq

theorem Tracks.step (tracks : Tracks n state) {settings : Settings (Exact K)}
    (rate_eq : settings.learningRate = real rate) (params : List (Exact K))
    (gradient : Fin n → K) : Tracks n (state.step settings params (vector gradient)).1 := by
  rw [State.step_fst]
  split
  · exact tracks
  · obtain ⟨pairs, rate, holds, aims⟩ := tracks.aim rate_eq gradient
    exact .aimed holds aims

/-- Steps with gradients of one length never lead out of the field. -/
theorem tracks_feed {settings : Settings (Exact K)} (rate_eq : settings.learningRate = real rate)
    (calls : List (List (Exact K) × (Fin n → K))) :
    Tracks n (State.start.feed settings (calls.map fun (params, g) => ⟨params, vector g⟩)) := by
  induction calls using List.reverseRecOn with
  | nil => exact .fresh rfl rfl
  | append_singleton calls call ih =>
      rw [List.map_append, List.map_singleton, State.feed_concat]
      exact ih.step rate_eq call.1 call.2

end Steps

section Main

/-- The settings with a function applied to their numbers. -/
def Settings.map {α β : Type} (f : α → β) (settings : Settings α) : Settings β :=
  ⟨f settings.learningRate, f settings.toleranceGrad, f settings.toleranceChange,
    settings.historySize⟩

/-- The direction of a state is minus the gradient times the inverse Hessian of the stored pairs,
which is positive definite and fits the newest pair; all that is divided by is positive. -/
structure IsQuasiNewton [Field K] [LinearOrder K] (state : State (Exact K)) (gradient : Fin n → K)
    (pairs : List (Secant n K)) : Prop where
  history_eq : state.history = pairs.map Secant.pair
  scale_eq : state.scale = real (initialScale pairs)
  direction_eq : state.direction = vector (-(inverseHessian pairs *ᵥ gradient))
  positive : IsPositive (inverseHessian pairs)
  descends : gradient ≠ 0 → gradient ⬝ᵥ -(inverseHessian pairs *ᵥ gradient) < 0
  secant : ∀ p, pairs.getLast? = some p → inverseHessian pairs *ᵥ p.y = p.s
  divisors_pos : ∀ p ∈ pairs, 0 < p.y ⬝ᵥ p.s ∧ 0 < p.y ⬝ᵥ p.y

variable [Field K] [LinearOrder K] [IsStrictOrderedRing K] [Interpretation K]

/-- After every step that takes aim, the direction is the quasi-Newton direction of the stored
pairs, and the newest of those is the one accepted last. -/
theorem isQuasiNewton_of_step (settings : Settings K)
    (calls : List (List (Exact K) × (Fin n → K))) (params : List (Exact K)) (gradient : Fin n → K)
    (large : (settings.map real).stops (vector gradient) = false) :
    let before : List (Call (Exact K)) := calls.map fun (params, g) => ⟨params, vector g⟩
    let state := State.start.feed (settings.map real) before
    ∃ pairs : List (Secant n K),
      IsQuasiNewton (state.step (settings.map real) params (vector gradient)).1 gradient pairs ∧
        (State.start.accepted (settings.map real)
            (before ++ [⟨params, vector gradient⟩])).getLast? =
          pairs.getLast?.map Secant.pair := by
  intro before state
  have rate_eq : (settings.map real).learningRate = real settings.learningRate := rfl
  have tracks : Tracks n state := tracks_feed rate_eq calls
  have next_eq : (state.step (settings.map real) params (vector gradient)).1 =
      state.aim (settings.map real) (vector gradient) := by
    rw [State.step_fst, if_neg (Bool.eq_false_iff.mp large)]
  obtain ⟨pairs, rate, holds, aims⟩ := tracks.aim rate_eq gradient
  rw [← next_eq] at holds aims
  have positive := isPositive_inverseHessian holds.curved
  refine ⟨pairs, ⟨holds.history_eq, holds.scale_eq, aims.direction_eq, positive, ?_, ?_, ?_⟩, ?_⟩
  · intro nonzero
    rw [dotProduct_neg, neg_lt_zero]
    exact positive.pos gradient nonzero
  · exact fun p newest => inverseHessian_mulVec_y holds.curved newest
  · exact fun p member => ⟨holds.curved p member, Secant.dot_y_pos (holds.curved p member)⟩
  · rw [← State.getLast?_history_feed, State.feed_concat]
    exact (congrArg List.getLast? holds.history_eq).trans List.getLast?_map

end Main

/-- Settings with room for one pair. -/
def oneSecant : Settings ℚ := ⟨1, 0, 0, 1⟩

/-- Three gradients with enough curvature between them. -/
def bowlGradients : List (List (Exact ℚ) × (Fin 2 → ℚ)) :=
  [([], ![2, 4]), ([], ![1, 1]), ([], ![-1, 1 / 2])]

/-- Three pairs are accepted, and the direction is that of the newest one. -/
theorem oneSecant_isQuasiNewton :
    letI := rationalInterpretation
    (oneSecant.map real).stops (vector ![1, 0]) = false ∧
      ∃ pairs : List (Secant 2 ℚ), pairs.length = 1 ∧
        IsQuasiNewton ((State.start.feed (oneSecant.map real)
          (bowlGradients.map fun (params, g) => ⟨params, vector g⟩)).step (oneSecant.map real) []
            (vector ![1, 0])).1 ![1, 0] pairs := by
  let := rationalInterpretation
  have large : (oneSecant.map real).stops (vector ![1, 0]) = false := by decide +kernel
  obtain ⟨pairs, newton, -⟩ := isQuasiNewton_of_step oneSecant bowlGradients [] ![1, 0] large
  have stored : ((State.start.feed (oneSecant.map real)
      (bowlGradients.map fun (params, g) => ⟨params, vector g⟩)).step (oneSecant.map real) []
        (vector ![1, 0])).1.history.length = 1 := by decide +kernel
  refine ⟨large, pairs, ?_, newton⟩
  rwa [newton.history_eq, List.length_map] at stored

end Lbfgs
end FormulaFit

end
