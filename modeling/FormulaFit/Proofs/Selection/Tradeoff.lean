import FormulaFit.Proofs.Scalar.Exact
import FormulaFit.Proofs.Selection.Winners
import Mathlib.Tactic.Linarith
import Mathlib.Tactic.NormNum

/-!
# Accuracy against simplicity

In exact arithmetic a score is a weighted mean of two ratings between zero and one, of which the
first falls strictly with the error and the second strictly with the complexity.  A candidate with
the greatest mean is not worse than another one in both respects, and a greater weight of simplicity
never leads to a more complex winner.
-/

namespace FormulaFit

namespace Exact

variable {K : Type} [Field K] [LinearOrder K]

/-- How far a value is on the way from the lowest to the highest one. -/
def portion (low high v : K) : K := (v - low) / (high - low)

section Portion

variable [IsStrictOrderedRing K] {low high v : K}

theorem portion_mem_Icc (member : v ∈ Set.Icc low high) : portion low high v ∈ Set.Icc 0 1 := by
  obtain ⟨low_le, le_high⟩ := member
  have width_nonneg := sub_nonneg.mpr (low_le.trans le_high)
  exact ⟨div_nonneg (sub_nonneg.mpr low_le) width_nonneg,
    div_le_one_of_le₀ (sub_le_sub_right le_high low) width_nonneg⟩

theorem strictMonoOn_portion (low high : K) :
    StrictMonoOn (portion low high) (Set.Icc low high) := by
  intro v v_member w w_member lt
  have wide : low < high := v_member.1.trans_lt (lt.trans_le w_member.2)
  exact div_lt_div_of_pos_right (sub_lt_sub_right lt low) (sub_pos.mpr wide)

end Portion

variable [Interpretation K] {values : List K}

theorem exists_minimum_eq (nonempty : values ≠ []) :
    ∃ low, Scalar.minimum Scalar.posInf (values.map real) = real low ∧
      ∀ v ∈ values, low ≤ v := by
  cases values with
  | nil => exact absurd rfl nonempty
  | cons first rest =>
      have holds : ∀ v ∈ first :: rest, True := fun _ _ => trivial
      have least := Selection.key_foldl_le id min_choice
        (fun a b _ _ => ⟨min_le_left a b, min_le_right a b⟩) first holds
      exact ⟨_, foldl_min_real rest first, least⟩

theorem exists_maximum_eq (nonempty : values ≠ []) :
    ∃ high, Scalar.maximum Scalar.negInf (values.map real) = real high ∧
      ∀ v ∈ values, v ≤ high := by
  cases values with
  | nil => exact absurd rfl nonempty
  | cons first rest =>
      have holds : ∀ v ∈ first :: rest, True := fun _ _ => trivial
      have greatest := Selection.key_foldl_le OrderDual.toDual max_choice
        (fun a b _ _ => ⟨le_max_left a b, le_max_right a b⟩) first holds
      exact ⟨_, foldl_max_real rest first, greatest⟩

/-- Elements are normalized to how far they are on the way from the lowest to the highest one. -/
theorem exists_normalize_eq [IsStrictOrderedRing K] (nonempty : values ≠ []) :
    ∃ low high, (∀ v ∈ values, v ∈ Set.Icc low high) ∧
      Selection.normalize (values.map real) = values.map fun v => real (portion low high v) := by
  obtain ⟨low, low_eq, low_le⟩ := exists_minimum_eq nonempty
  obtain ⟨high, high_eq, le_high⟩ := exists_maximum_eq nonempty
  refine ⟨low, high, fun v member => ⟨low_le v member, le_high v member⟩, ?_⟩
  rw [Selection.normalize, low_eq, high_eq, List.map_map]
  refine List.map_congr_left fun v member => ?_
  have width_nonneg := sub_nonneg.mpr ((low_le v member).trans (le_high v member))
  simp only [Function.comp_apply, real_sub, zero_eq, lt_real, decide_eq_true_eq]
  split
  · rename_i wide
    rw [real_div, div?, if_neg wide.ne', portion]
    rfl
  · rename_i narrow
    rw [portion, le_antisymm (not_lt.mp narrow) width_nonneg, div_zero]

end Exact

namespace Selection

section Blend

variable {K : Type} [Field K]

/-- Weighted mean of two ratings. -/
def blend (r a b : K) : K := (1 - r) * a + r * b

theorem blend_self (r a : K) : blend r a a = a := by
  rw [blend, ← add_mul, sub_add_cancel, one_mul]

variable [LinearOrder K] [IsStrictOrderedRing K] {r r' a a' b b' : K}

theorem blend_le_blend (nonneg : 0 ≤ r) (le_one : r ≤ 1) (a_le : a ≤ a') (b_le : b ≤ b') :
    blend r a b ≤ blend r a' b' :=
  add_le_add (mul_le_mul_of_nonneg_left a_le (sub_nonneg.mpr le_one))
    (mul_le_mul_of_nonneg_left b_le nonneg)

theorem blend_mem_Icc (nonneg : 0 ≤ r) (le_one : r ≤ 1) (a_mem : a ∈ Set.Icc 0 1)
    (b_mem : b ∈ Set.Icc 0 1) : blend r a b ∈ Set.Icc 0 1 := by
  constructor
  · rw [← blend_self r 0]
    exact blend_le_blend nonneg le_one a_mem.1 b_mem.1
  · rw [← blend_self r 1]
    exact blend_le_blend nonneg le_one a_mem.2 b_mem.2

theorem blend_lt_blend (pos : 0 < r) (lt_one : r < 1) (a_le : a ≤ a') (b_le : b ≤ b')
    (some_lt : a < a' ∨ b < b') : blend r a b < blend r a' b' := by
  have rest_pos := sub_pos.mpr lt_one
  rcases some_lt with a_lt | b_lt
  · exact add_lt_add_of_lt_of_le (mul_lt_mul_of_pos_left a_lt rest_pos)
      (mul_le_mul_of_nonneg_left b_le pos.le)
  · exact add_lt_add_of_le_of_lt (mul_le_mul_of_nonneg_left a_le rest_pos.le)
      (mul_lt_mul_of_pos_left b_lt pos)

/-- If one pair of ratings is ahead at a weight and another at a greater weight, the second rating
of the other is not lower. -/
theorem le_of_blend_le (lt : r < r') (le_one : r' ≤ 1) (ahead : blend r a' b' ≤ blend r a b)
    (behind : blend r' a b ≤ blend r' a' b') : b ≤ b' := by
  -- The weights `1 - r'` and `1 - r` eliminate the first ratings.
  have eliminated := add_le_add
    (mul_le_mul_of_nonneg_left ahead (sub_nonneg.mpr le_one))
    (mul_le_mul_of_nonneg_left behind (sub_nonneg.mpr (lt.le.trans le_one)))
  have gain : (r' - r) * b ≤ (r' - r) * b' := by
    simp only [blend] at eliminated
    linarith
  exact le_of_mul_le_mul_left gain (sub_pos.mpr lt)

end Blend

/-- Candidates by their exact errors and complexities. -/
abbrev ExactPool (K : Type) : Type := List (K × Nat)

namespace ExactPool

variable {K : Type} [Field K] [LinearOrder K] [Interpretation K]

/-- The errors of the candidates. -/
def errors (pool : ExactPool K) : List (Exact K) := pool.map fun c => Exact.real c.1

/-- The complexities of the candidates. -/
def complexities (pool : ExactPool K) : List Nat := pool.map Prod.snd

/-- A candidate wins the pool at a weight. -/
def Wins (pool : ExactPool K) (rci : K) (c : K × Nat) : Prop :=
  pool[winner (.weighted (Exact.real rci)) pool.errors pool.complexities]? = some c

instance (pool : ExactPool K) (rci : K) (c : K × Nat) :
    Decidable (pool.Wins rci c) := inferInstanceAs (Decidable (_ = _))

/-- A candidate is no worse than another one in both respects, and better in one. -/
def Dominates (d c : K × Nat) : Prop := d.1 ≤ c.1 ∧ d.2 ≤ c.2 ∧ (d.1 < c.1 ∨ d.2 < c.2)

/-- Ratings between zero and one, of which the first falls strictly with the error of a candidate
and the second strictly with its complexity, and whose weighted means are the scores. -/
structure Ratings (pool : ExactPool K) (accuracy simplicity : K × Nat → K) : Prop where
  accuracy_mem : ∀ c ∈ pool, accuracy c ∈ Set.Icc 0 1
  simplicity_mem : ∀ c ∈ pool, simplicity c ∈ Set.Icc 0 1
  accuracy_le_iff : ∀ c ∈ pool, ∀ d ∈ pool, accuracy c ≤ accuracy d ↔ d.1 ≤ c.1
  simplicity_le_iff : ∀ c ∈ pool, ∀ d ∈ pool, simplicity c ≤ simplicity d ↔ d.2 ≤ c.2
  scores_eq : ∀ rci, scores (Exact.real rci) pool.errors pool.complexities =
    pool.map fun c => Exact.real (blend rci (accuracy c) (simplicity c))

theorem fillInvalid_errors (pool : ExactPool K) : fillInvalid pool.errors = pool.errors := by
  refine fillInvalid_eq_self fun e member => ?_
  obtain ⟨c, -, rfl⟩ := List.mem_map.mp member
  exact Exact.isFinite_real c.1

variable {pool : ExactPool K} {accuracy simplicity : K × Nat → K} {rci rci' : K} {c d : K × Nat}

theorem Wins.mem (wins : pool.Wins rci c) : c ∈ pool := List.mem_of_getElem? wins

namespace Ratings

theorem accuracy_lt_iff (ratings : pool.Ratings accuracy simplicity) (c_member : c ∈ pool)
    (d_member : d ∈ pool) : accuracy c < accuracy d ↔ d.1 < c.1 := by
  rw [← not_le, ← not_le, ratings.accuracy_le_iff d d_member c c_member]

theorem simplicity_lt_iff (ratings : pool.Ratings accuracy simplicity) (c_member : c ∈ pool)
    (d_member : d ∈ pool) : simplicity c < simplicity d ↔ d.2 < c.2 := by
  rw [← not_le, ← not_le, ratings.simplicity_le_iff d d_member c c_member]

theorem exists_wins (ratings : pool.Ratings accuracy simplicity) (nonempty : pool ≠ []) (rci : K) :
    ∃ c, pool.Wins rci c ∧ ∀ d ∈ pool,
      blend rci (accuracy d) (simplicity d) ≤ blend rci (accuracy c) (simplicity c) := by
  let key (s : Exact K) : Kᵒᵈ := OrderDual.toDual (s.real?.getD 0)
  have below : BeatsBelow (fun a b => Scalar.lt b a) key fun s => ∃ v, s = Exact.real v := by
    rintro _ _ ⟨v, rfl⟩ ⟨w, rfl⟩
    exact Exact.lt_real w v
  have scores_eq := ratings.scores_eq rci
  have scored : scores (Exact.real rci) pool.errors pool.complexities ≠ [] := by
    rw [scores_eq]
    simpa using nonempty
  have elements : ∀ s ∈ scores (Exact.real rci) pool.errors pool.complexities,
      ∃ v, s = Exact.real v := by
    rw [scores_eq]
    intro s member
    obtain ⟨c, -, rfl⟩ := List.mem_map.mp member
    exact ⟨_, rfl⟩
  obtain ⟨s, least⟩ := isFirstLeast_firstBest below scored elements
  have found := least.getElem?_eq
  rw [scores_eq, List.getElem?_map, Option.map_eq_some_iff] at found
  obtain ⟨c, found, rfl⟩ := found
  refine ⟨c, ?_, fun d member => ?_⟩
  · rw [Wins, winner, scores_eq]
    exact found
  · exact least.le _ (scores_eq ▸ List.mem_map_of_mem member)

theorem blend_le (ratings : pool.Ratings accuracy simplicity) (wins : pool.Wins rci c)
    (member : d ∈ pool) :
    blend rci (accuracy d) (simplicity d) ≤ blend rci (accuracy c) (simplicity c) := by
  obtain ⟨c', wins', le⟩ := ratings.exists_wins (List.ne_nil_of_mem member) rci
  obtain rfl := Option.some.inj (wins.symm.trans wins')
  exact le d member

variable [IsStrictOrderedRing K]

/-- A winner by both ratings is not dominated. -/
theorem not_dominates (ratings : pool.Ratings accuracy simplicity) (pos : 0 < rci)
    (lt_one : rci < 1) (wins : pool.Wins rci c) (member : d ∈ pool) : ¬Dominates d c := by
  rintro ⟨error_le, complexity_le, some_lt⟩
  have lt := blend_lt_blend pos lt_one ((ratings.accuracy_le_iff c wins.mem d member).mpr error_le)
    ((ratings.simplicity_le_iff c wins.mem d member).mpr complexity_le)
    (some_lt.imp (ratings.accuracy_lt_iff wins.mem member).mpr
      (ratings.simplicity_lt_iff wins.mem member).mpr)
  exact absurd lt (not_lt.mpr (ratings.blend_le wins member))

theorem complexity_le (ratings : pool.Ratings accuracy simplicity) (lt : rci < rci')
    (le_one : rci' ≤ 1) (wins : pool.Wins rci c) (wins' : pool.Wins rci' d) : d.2 ≤ c.2 := by
  have ahead := ratings.blend_le wins wins'.mem
  have behind := ratings.blend_le wins' wins.mem
  rw [← ratings.simplicity_le_iff c wins.mem d wins'.mem]
  exact le_of_blend_le lt le_one ahead behind

end Ratings

variable [IsStrictOrderedRing K]

/-- The distances of normalized errors and complexities from one are such ratings. -/
theorem exists_ratings (nonempty : pool ≠ []) :
    ∃ accuracy simplicity, pool.Ratings accuracy simplicity := by
  have errors_eq : pool.errors = (pool.map Prod.fst).map Exact.real := List.map_map.symm
  have complexities_eq : pool.complexities.map Scalar.ofNat =
      (pool.map fun c => (c.2 : K)).map Exact.real := by
    rw [complexities, List.map_map, List.map_map]
    rfl
  have errors_nonempty : pool.map Prod.fst ≠ [] := by simpa using nonempty
  have complexities_nonempty : pool.map (fun c => (c.2 : K)) ≠ [] := by simpa using nonempty
  obtain ⟨low, high, error_mem, normalized⟩ := Exact.exists_normalize_eq errors_nonempty
  obtain ⟨low', high', complexity_mem, normalized'⟩ :=
    Exact.exists_normalize_eq complexities_nonempty
  rw [← errors_eq, List.map_map] at normalized
  rw [← complexities_eq, List.map_map] at normalized'
  have error_mem {c : K × Nat} (member : c ∈ pool) := error_mem c.1 (List.mem_map_of_mem member)
  have complexity_mem {c : K × Nat} (member : c ∈ pool) :=
    complexity_mem c.2 (List.mem_map_of_mem member)
  have distance_mem {x : K} (member : x ∈ Set.Icc 0 1) : 1 - x ∈ Set.Icc 0 1 :=
    ⟨sub_nonneg.mpr member.2, sub_le_self 1 member.1⟩
  refine ⟨fun c => 1 - Exact.portion low high c.1, fun c => 1 - Exact.portion low' high' c.2,
    ?_, ?_, ?_, ?_, ?_⟩
  · exact fun c member => distance_mem (Exact.portion_mem_Icc (error_mem member))
  · exact fun c member => distance_mem (Exact.portion_mem_Icc (complexity_mem member))
  · intro c c_member d d_member
    rw [sub_le_sub_iff_left]
    exact (Exact.strictMonoOn_portion low high).le_iff_le (error_mem d_member) (error_mem c_member)
  · intro c c_member d d_member
    rw [sub_le_sub_iff_left, ← Nat.cast_le (α := K)]
    exact (Exact.strictMonoOn_portion low' high').le_iff_le (complexity_mem d_member)
      (complexity_mem c_member)
  · intro rci
    rw [scores, fillInvalid_errors, normalized, normalized', List.zipWith_map, List.zipWith_self]
    rfl

/-- In exact arithmetic every score lies between zero and one, and some candidate wins.  Unless only
one of error and complexity counts, no candidate dominates the winner, and a greater weight never
makes a more complex candidate win. -/
theorem wins_tradeoff (pool : ExactPool K) (nonempty : pool ≠ []) (rci : K) (nonneg : 0 ≤ rci)
    (le_one : rci ≤ 1) :
    (∃ values : List K, scores (Exact.real rci) pool.errors pool.complexities =
        values.map Exact.real ∧ values.length = pool.length ∧ ∀ v ∈ values, 0 ≤ v ∧ v ≤ 1) ∧
      ∃ c, pool.Wins rci c ∧ (0 < rci → rci < 1 → ∀ d ∈ pool, ¬Dominates d c) ∧
        ∀ rci' d, rci < rci' → rci' ≤ 1 → pool.Wins rci' d → d.2 ≤ c.2 := by
  obtain ⟨accuracy, simplicity, ratings⟩ := exists_ratings nonempty
  have scores_eq := ratings.scores_eq rci
  obtain ⟨c, wins, -⟩ := ratings.exists_wins nonempty rci
  refine ⟨⟨pool.map fun c => blend rci (accuracy c) (simplicity c), ?_, List.length_map _, ?_⟩, c,
    wins, fun pos lt_one d member => ratings.not_dominates pos lt_one wins member,
    fun rci' d lt le_one' wins' => ratings.complexity_le lt le_one' wins wins'⟩
  · rw [scores_eq, List.map_map]
    rfl
  · intro v member
    obtain ⟨c, is_candidate, rfl⟩ := List.mem_map.mp member
    exact blend_mem_Icc nonneg le_one (ratings.accuracy_mem c is_candidate)
      (ratings.simplicity_mem c is_candidate)

/-- An accurate candidate, a simple one, one between them and one that is dominated. -/
def compromisePool : ExactPool ℚ := [(6, 9), (0, 9), (1, 4), (8, 1)]

theorem compromisePool_tradeoff :
    letI := rationalInterpretation
    compromisePool ≠ [] ∧ compromisePool.Wins (1 / 2) (1, 4) ∧
      (∀ d ∈ compromisePool, ¬Dominates d (1, 4)) ∧
      ∃ d, compromisePool.Wins (4 / 5) d ∧ d.2 ≤ 4 := by
  let := rationalInterpretation
  have nonempty : compromisePool ≠ [] := by decide
  have wins : compromisePool.Wins (1 / 2) (1, 4) := by decide +kernel
  have wins' : compromisePool.Wins (4 / 5) (8, 1) := by decide +kernel
  obtain ⟨-, c, won, not_dominated, complexity_le⟩ :=
    wins_tradeoff compromisePool nonempty (1 / 2) (by norm_num) (by norm_num)
  obtain rfl := Option.some.inj (won.symm.trans wins)
  exact ⟨nonempty, wins, not_dominated (by norm_num) (by norm_num), (8, 1), wins',
    complexity_le (4 / 5) (8, 1) (by norm_num) (by norm_num) wins'⟩

end ExactPool

end Selection
end FormulaFit
