import FormulaFit.Optimize.Lbfgs
import FormulaFit.Proofs.Scalar.Exact
import Mathlib.Algebra.BigOperators.Fin
import Mathlib.Data.Matrix.Mul

/-!
# Vectors of exact scalars

Lists of as many elements of a field compute like vectors: the operations entry by entry and the
scalar product are those of linear algebra.
-/

section

open scoped Matrix

namespace FormulaFit

namespace Lbfgs

theorem combineWith_eq_zipWith {α : Type} (f : α → α → α) {xs ys : List α}
    (length_eq : xs.length = ys.length) : combineWith f xs ys = List.zipWith f xs ys := by
  induction xs generalizing ys with
  | nil => rw [List.eq_nil_of_length_eq_zero length_eq.symm]; rfl
  | cons x xs ih =>
      cases ys with
      | nil => cases length_eq
      | cons y ys => rw [combineWith, List.zipWith_cons_cons, ih (Nat.succ.inj length_eq)]

end Lbfgs

namespace Exact

variable {K : Type} {n : Nat}

/-- The entries of a vector as exact scalars. -/
def vector (v : Fin n → K) : List (Exact K) := List.ofFn fun i => real (v i)

theorem map_vector {f : Exact K → Exact K} {g : K → K} (each : ∀ a, f (real a) = real (g a))
    (v : Fin n → K) : (vector v).map f = vector fun i => g (v i) := by
  rw [vector, List.map_ofFn]
  exact congrArg List.ofFn (funext fun i => each (v i))

theorem zipWith_vector {f : Exact K → Exact K → Exact K} {g : K → K → K}
    (each : ∀ a b, f (real a) (real b) = real (g a b)) (v w : Fin n → K) :
    List.zipWith f (vector v) (vector w) = vector fun i => g (v i) (w i) := by
  refine List.ext_getElem (by simp [vector]) fun i _ _ => ?_
  simp [vector, each]

theorem combineWith_vector {f : Exact K → Exact K → Exact K} {g : K → K → K}
    (each : ∀ a b, f (real a) (real b) = real (g a b)) (v w : Fin n → K) :
    Lbfgs.combineWith f (vector v) (vector w) = vector fun i => g (v i) (w i) := by
  rw [Lbfgs.combineWith_eq_zipWith f (by simp [vector]), zipWith_vector each]

section Field

variable [Field K] [LinearOrder K] [Interpretation K]

theorem sum_vector (v : Fin n → K) (start : K) :
    (vector v).foldl (· + ·) (real start) = real (start + ∑ i, v i) := by
  have entries_eq : vector v = (List.ofFn v).map real := by rw [List.map_ofFn]; rfl
  rw [entries_eq, sum_map_real, List.sum_ofFn]

/-- The scalar product is that of linear algebra. -/
theorem dot_vector (v w : Fin n → K) : Scalar.dot (vector v) (vector w) = real (v ⬝ᵥ w) := by
  rw [Scalar.dot, zipWith_vector (g := (· * ·)) fun a b => real_mul a b, zero_eq, neg_real,
    sum_vector, neg_zero, zero_add]
  rfl

end Field

end Exact

end FormulaFit

end
