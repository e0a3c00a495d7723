import FormulaFit.Proofs.Selection.Arrangement

/-!
# Selection by accuracy alone

With a weight of zero the score of a candidate is one less the place of its error.  Rounding takes
that to be one for every place up to `2 ^ (-54)`, so the first candidate with so small a place wins,
and the weight selects the first candidate with the least error exactly if no earlier error lies so
near to it.
-/

namespace FormulaFit

namespace Double

/-- The greatest double that is lost when it is taken from one, `2 ^ (-54)`. -/
def absorbed : Float := Float.ofBits 0x3c90000000000000

theorem value_absorbed : value absorbed = 2 ^ (-54 : ℤ) :=
  value_eq_zpow 1020 (by decide +kernel)

/-- The double before one. -/
def beforeOne : Float := Float.ofBits 0x3fefffffffffffff

theorem value_beforeOne : value beforeOne = 1 - 2 * value absorbed := by
  have units_eq : units beforeOne = units 1 - 2 * units absorbed := by decide +kernel
  rw [← value_one, value, value, value, units_eq, Int.cast_sub, Int.cast_mul, Int.cast_ofNat,
    sub_div, mul_div_assoc]

variable {v : Float}

/-- A number is lost when it is taken from one exactly if it is not above the greatest such. -/
theorem InUnit.value_one_sub_eq_one_iff (inUnit : InUnit v) :
    value (1 - v) = 1 ↔ value v ≤ value absorbed := by
  have nearest := inUnit.nearest_one_sub
  have absorbed_finite : absorbed.isFinite = true := by decide +kernel
  constructor
  · intro lost
    by_contra above
    rw [not_le] at above
    have absorbed_pos : 0 < value absorbed := by
      rw [value_absorbed]
      positivity
    -- The double before one is nearer than one.
    have le := nearest.le beforeOne (by decide +kernel)
    rw [lost, value_beforeOne, sub_sub_cancel, abs_of_nonneg inUnit.nonneg] at le
    rcases abs_cases (1 - 2 * value absorbed - (1 - value v)) with ⟨distance, -⟩ | ⟨distance, -⟩ <;>
      rw [distance] at le <;> linarith
  · intro le
    have lost : 1 - absorbed = 1 := by decide +kernel
    rcases lt_or_eq_of_le le with lt | same
    · have reference := nearest_sub (show (1 : Float).isFinite = true from rfl) absorbed_finite
      rw [lost, value_one] at reference
      have ge := reference.value_le_value nearest (sub_lt_sub_left lt 1)
      exact le_antisymm inUnit.one_sub.le_one (value_one ▸ ge)
    · have nonzero : value v ≠ 0 := by
        rw [same, value_absorbed]
        positivity
      rw [eq_of_value_eq inUnit.finite absorbed_finite same nonzero, lost, value_one]

end Double

namespace Selection

open Double

/-- With a weight of zero only the place of the error counts. -/
theorem value_score_zero {error complexity : Float} (error_unit : InUnit error)
    (complexity_unit : InUnit complexity) :
    value (score 0 error complexity) = value (1 - error) := by
  have unit_zero : InUnit 0 := ⟨rfl, value_zero.ge, value_zero.trans_le zero_le_one⟩
  have rest := error_unit.one_sub
  have accuracy : (1 - 0 : Float) * (1 - error) = 1 - error := by
    rw [show (1 - 0 : Float) = 1 by decide +kernel]
    exact one_mul_of_finite rest.finite
  have simplicity : value (0 * (1 - complexity)) = 0 := by
    have product := nearest_mul unit_zero.finite complexity_unit.one_sub.finite
    rw [value_zero, zero_mul, ← value_zero] at product
    rw [product.value_eq rfl, value_zero]
  have sum := nearest_add rest.finite (unit_zero.mul complexity_unit.one_sub).finite
  rw [simplicity, add_zero] at sum
  rw [score, accuracy]
  exact sum.value_eq (isNaN_of_finite rest.finite)

theorem Amounts.value_place_eq_zero {values : List Float} {v : Float} (amounts : Amounts values)
    (member : v ∈ values) (least : value v = value (lowest values)) :
    value (place values v) = 0 := by
  rw [place]
  split
  · rename_i wide
    have pos := (amounts.lt_spread_iff member).mp wide
    obtain ⟨nearest, distance_finite, -⟩ := amounts.sub_lowest member
    rw [least, sub_self, ← value_zero] at nearest
    have quotient := nearest_div distance_finite (amounts.isFinite_spread member) pos.ne'
    rw [nearest.value_eq rfl, value_zero, zero_div, ← value_zero] at quotient
    rw [quotient.value_eq rfl, value_zero]
  · exact value_zero

namespace Pool

variable {pool : Pool} {c : Float × UInt64} {i j k : Nat} {v : Float}

/-- Every error of the pool is finite and not negative. -/
structure Sound (pool : Pool) : Prop where
  finite : ∀ c ∈ pool, c.1.isFinite = true
  nonneg : ∀ c ∈ pool, 0 ≤ c.1

/-- The error at an index lies so near to the least one that its place is lost. -/
def IsNear (pool : Pool) (k : Nat) : Prop :=
  ∃ p, (normalize pool.errors)[k]? = some p ∧ p ≤ absorbed

instance (pool : Pool) (k : Nat) : Decidable (pool.IsNear k) :=
  decidable_of_iff ((normalize pool.errors)[k]?.any (fun p => decide (p ≤ absorbed)) = true)
    ((Option.any_eq_true _ _).trans
      (exists_congr fun _ => and_congr_right fun _ => decide_eq_true_iff))

theorem Sound.minError_admissible (sound : pool.Sound) : Admissible .minError pool where
  nonneg c member _ := sound.nonneg c member
  weight rci same := by cases same

theorem Sound.weighted_admissible (sound : pool.Sound) : Admissible (.weighted 0) pool where
  nonneg c member _ := sound.nonneg c member
  weight rci same := by
    cases same
    decide +kernel

theorem Sound.fillInvalid_eq (sound : pool.Sound) : fillInvalid pool.errors = pool.errors := by
  refine fillInvalid_eq_self fun e member => ?_
  obtain ⟨c, is_candidate, rfl⟩ := List.mem_map.mp member
  exact sound.finite c is_candidate

theorem Sound.amounts (sound : pool.Sound) : Amounts pool.errors :=
  sound.fillInvalid_eq ▸ sound.minError_admissible.measured.amounts

theorem getElem?_errors (found : pool[k]? = some c) : pool.errors[k]? = some c.1 := by
  rw [errors, List.getElem?_map, found]
  rfl

theorem Sound.isNear_iff (sound : pool.Sound) (found : pool[k]? = some c) :
    pool.IsNear k ↔ value (place pool.errors c.1) ≤ value absorbed := by
  have found' := getElem?_errors found
  have inUnit := sound.amounts.inUnit_place (List.mem_of_getElem? found')
  have entry : (normalize pool.errors)[k]? = some (place pool.errors c.1) := by
    rw [normalize_eq, List.getElem?_map, found']
    rfl
  rw [value_le_value_iff, ← le_iff (isNaN_of_finite inUnit.finite) (by decide +kernel), IsNear]
  constructor
  · rintro ⟨p, at_k, le⟩
    obtain rfl := Option.some.inj (entry.symm.trans at_k)
    exact le
  · exact fun le => ⟨_, entry, le⟩

theorem Sound.score_spec (sound : pool.Sound)
    (found : (pool.ranking (.weighted 0))[k]? = some v) :
    value v ≤ 1 ∧ (value v = 1 ↔ pool.IsNear k) := by
  rw [ranking_eq, List.getElem?_map, Option.map_eq_some_iff] at found
  obtain ⟨c, found, rfl⟩ := found
  have member := List.mem_of_getElem? found
  have error_unit := sound.amounts.inUnit_place (List.mem_of_getElem? (getElem?_errors found))
  have complexity_unit := pool.amounts_complexities.inUnit_place (complexity_mem member)
  have filled_eq : pool.filled c = c.1 := if_pos (sound.finite c member)
  rw [merit, sound.fillInvalid_eq, filled_eq, value_score_zero error_unit complexity_unit,
    error_unit.value_one_sub_eq_one_iff, sound.isNear_iff found]
  exact ⟨error_unit.one_sub.le_one, Iff.rfl⟩

/-- The candidate with the least error has the place zero. -/
theorem Sound.isNear_of_chooses (sound : pool.Sound) (chooses : Chooses .minError pool i v) :
    pool.IsNear i := by
  have amounts := sound.amounts
  have numbers := sound.minError_admissible.isNaN_ranking
  have not_preferred := chooses.not_preferred
  have found := List.getElem?_eq_getElem chooses.lt_length
  have found' := getElem?_errors found
  have v_eq := chooses.getElem?_eq
  rw [show pool.ranking .minError = pool.errors from sound.fillInvalid_eq] at *
  rw [found', Option.some_inj] at v_eq
  have member := List.mem_of_getElem? found'
  obtain ⟨is_error, le⟩ := amounts.lowest_spec member
  have not_below := not_preferred _ is_error
  rw [← v_eq, prefers_iff (numbers _ is_error) (numbers _ member), Int.not_lt] at not_below
  rw [sound.isNear_iff found, amounts.value_place_eq_zero member
    (le_antisymm (value_le_value_iff.mpr not_below) (le _ member)), value_absorbed]
  positivity

/-- On finite errors that are not negative, a weight of zero selects the first candidate whose place
is lost when it is taken from one.  That is not behind the first candidate with the least error, and
the same one exactly if no place before it is lost. -/
theorem select_weighted_zero (pool : Pool) (sound : pool.Sound) (nonempty : pool ≠ []) :
    ∃ i j : Nat, select .minError pool.errors pool.complexities = .ok i ∧
      select (.weighted 0) pool.errors pool.complexities = .ok j ∧
      j ≤ i ∧ pool.IsNear j ∧ (∀ k < j, ¬pool.IsNear k) ∧ (j = i ↔ ∀ k < i, ¬pool.IsNear k) := by
  obtain ⟨i, v, chooses⟩ := sound.minError_admissible.exists_chooses nonempty
  obtain ⟨j, w, chooses'⟩ := sound.weighted_admissible.exists_chooses nonempty
  have numbers := sound.weighted_admissible.isNaN_ranking
  have w_number := numbers w (List.mem_of_getElem? chooses'.getElem?_eq)
  have exists_score {k : Nat} (k_lt : k < pool.length) :
      ∃ u, (pool.ranking (.weighted 0))[k]? = some u := by
    rw [ranking_eq]
    exact ⟨_, List.getElem?_eq_getElem (by rwa [List.length_map])⟩
  have i_near := sound.isNear_of_chooses chooses
  have first : ∀ k < j, ¬pool.IsNear k := by
    intro k k_lt k_near
    obtain ⟨u, found⟩ := exists_score (Nat.lt_trans k_lt chooses'.lt_length)
    have below := chooses'.preferred k k_lt u found
    have u_number := numbers u (List.mem_of_getElem? found)
    have u_lt := value_lt_value_iff.mpr ((lt_iff u_number w_number).mp below)
    rw [(sound.score_spec found).2.mpr k_near] at u_lt
    exact absurd u_lt (not_lt.mpr (sound.score_spec chooses'.getElem?_eq).1)
  have j_near : pool.IsNear j := by
    obtain ⟨u, found⟩ := exists_score chooses.lt_length
    have member := List.mem_of_getElem? found
    have not_above := chooses'.not_preferred u member
    have le := value_le_value_iff.mpr
      (Int.not_lt.mp (mt (lt_iff w_number (numbers u member)).mpr not_above))
    rw [(sound.score_spec found).2.mpr i_near] at le
    obtain ⟨le_one, near_iff⟩ := sound.score_spec chooses'.getElem?_eq
    exact near_iff.mp (le_antisymm le_one le)
  refine ⟨i, j, chooses.selected, chooses'.selected, ?_, j_near, first, ?_⟩
  · exact Nat.le_of_not_lt fun i_lt => first i i_lt i_near
  · constructor
    · rintro rfl
      exact first
    · intro none_before
      refine Nat.le_antisymm (Nat.le_of_not_lt fun i_lt => first i i_lt i_near) ?_
      exact Nat.le_of_not_lt fun j_lt => none_before j j_lt j_near

/-- Errors that spread over twenty powers of ten, the least one in front of the next. -/
def widePool : Pool := [(1, 1), (0, 1), (1e-20, 1)]

theorem widePool_selected :
    widePool.Sound ∧ widePool ≠ [] ∧
      select .minError widePool.errors widePool.complexities = .ok 1 ∧
      select (.weighted 0) widePool.errors widePool.complexities = .ok 1 := by
  have sound : widePool.Sound := ⟨by decide +kernel, by decide +kernel⟩
  have nonempty : widePool ≠ [] := by decide
  have by_error : select .minError widePool.errors widePool.complexities = .ok 1 := by
    decide +kernel
  have none_before : ∀ k < 1, ¬widePool.IsNear k := by decide +kernel
  obtain ⟨i, j, selected, selected', -, -, -, same_iff⟩ :=
    select_weighted_zero widePool sound nonempty
  obtain rfl := Except.ok.inj (by_error.symm.trans selected)
  obtain rfl := same_iff.mpr none_before
  exact ⟨sound, nonempty, selected, selected'⟩

/-- The next error in front of the least one is selected instead. -/
theorem nearTie_differs :
    (∀ e ∈ [1e-20, 0, 1], Float.isFinite e = true ∧ 0 ≤ e) ∧
      select .minError [1e-20, 0, 1] [1, 1, 1] = .ok 1 ∧
      select (.weighted 0) [1e-20, 0, 1] [1, 1, 1] = .ok 0 := by
  refine ⟨?_, ?_, ?_⟩ <;> decide +kernel

end Pool

end Selection
end FormulaFit
