import FormulaFit.Proofs.Selection.Ranking

/-!
# Normalized values and scores

A value is normalized by where it lies on the range that a pool of values covers.  The range and the
place on it are rounded, but a correctly rounded operation keeps order, so every place lies between
zero and one and every score is a finite number.  The ends of the range may be zeros of either sign,
depending on the order of the pool; a score does not depend on that.
-/

namespace FormulaFit

namespace Double

section Unit

variable {a b v w : Float} {x : ℚ}

/-- A finite double between zero and one. -/
structure InUnit (v : Float) : Prop where
  finite : v.isFinite = true
  nonneg : 0 ≤ value v
  le_one : value v ≤ 1

theorem Nearest.nonneg (nearest : Nearest x v) (nonneg : 0 ≤ x) : 0 ≤ value v := by
  have zero_le := nearest.le_value (d := 0) rfl (value_zero.trans_le nonneg)
  rwa [value_zero] at zero_le

theorem Nearest.inUnit (nearest : Nearest x v) (nonneg : 0 ≤ x) (le_one : x ≤ 1) : InUnit v where
  finite := nearest.isFinite (a := 0) (b := 1) rfl rfl (value_zero.trans_le nonneg)
    (le_one.trans_eq value_one.symm)
  nonneg := nearest.nonneg nonneg
  le_one := by
    have le := nearest.value_le (d := 1) rfl (le_one.trans_eq value_one.symm)
    rwa [value_one] at le

theorem InUnit.nearest_one_sub (inUnit : InUnit v) : Nearest (1 - value v) (1 - v) := by
  have nearest := nearest_sub (show (1 : Float).isFinite = true from rfl) inUnit.finite
  rwa [value_one] at nearest

theorem InUnit.one_sub (inUnit : InUnit v) : InUnit (1 - v) :=
  inUnit.nearest_one_sub.inUnit (sub_nonneg.mpr inUnit.le_one)
    (sub_le_self 1 inUnit.nonneg)

theorem InUnit.mul (inUnit : InUnit v) (inUnit' : InUnit w) : InUnit (v * w) :=
  (nearest_mul inUnit.finite inUnit'.finite).inUnit (mul_nonneg inUnit.nonneg inUnit'.nonneg)
    (mul_le_one₀ inUnit.le_one inUnit'.nonneg inUnit'.le_one)

theorem InUnit.isFinite_add (inUnit : InUnit v) (inUnit' : InUnit w) : (v + w).isFinite = true := by
  have value_two : value 2 = 2 := by
    have units_eq : units 2 = 2 * 2 ^ 1074 := by decide +kernel
    rw [value, units_eq, Int.cast_mul, Int.cast_pow]
    exact mul_div_cancel_right₀ _ (by positivity)
  have nonneg := inUnit.nonneg
  have nonneg' := inUnit'.nonneg
  have le_one := inUnit.le_one
  have le_one' := inUnit'.le_one
  exact (nearest_add inUnit.finite inUnit'.finite).isFinite (a := 0) (b := 2) rfl
    (by decide +kernel) (by rw [value_zero]; linarith) (by rw [value_two]; linarith)

end Unit

section Congruence

variable {a a' b b' v w : Float}

theorem value_sub_congr (a_finite : a.isFinite = true) (a'_finite : a'.isFinite = true)
    (b_finite : b.isFinite = true) (b'_finite : b'.isFinite = true)
    (a_eq : value a = value a') (b_eq : value b = value b') :
    value (a - b) = value (a' - b') := by
  have nearest := nearest_sub a_finite b_finite
  have nearest' := nearest_sub a'_finite b'_finite
  rw [← a_eq, ← b_eq] at nearest'
  by_cases a_zero : value a = 0
  · obtain ⟨number, neg_eq⟩ := neg_spec b_finite
    rw [a_zero, zero_sub, ← neg_eq] at nearest nearest'
    rw [nearest.value_eq number, nearest'.value_eq number]
  · by_cases b_zero : value b = 0
    · have number := isNaN_of_finite a_finite
      rw [b_zero, sub_zero] at nearest nearest'
      rw [nearest.value_eq number, nearest'.value_eq number]
    · rw [eq_of_value_eq a_finite a'_finite a_eq a_zero,
        eq_of_value_eq b_finite b'_finite b_eq b_zero]

theorem value_div_congr (a_finite : a.isFinite = true) (a'_finite : a'.isFinite = true)
    (b_finite : b.isFinite = true) (b'_finite : b'.isFinite = true)
    (a_eq : value a = value a') (b_eq : value b = value b') (nonzero : value b ≠ 0) :
    value (a / b) = value (a' / b') := by
  obtain rfl := eq_of_value_eq b_finite b'_finite b_eq nonzero
  by_cases a_zero : value a = 0
  · have nearest := nearest_div a_finite b_finite nonzero
    have nearest' := nearest_div a'_finite b_finite nonzero
    rw [a_zero, zero_div, ← value_zero] at nearest
    rw [← a_eq, a_zero, zero_div, ← value_zero] at nearest'
    rw [nearest.value_eq rfl, nearest'.value_eq rfl]
  · rw [eq_of_value_eq a_finite a'_finite a_eq a_zero]

/-- Of two places of the same value, one is the other's distance from one to the last bit. -/
theorem InUnit.one_sub_congr (inUnit : InUnit v) (inUnit' : InUnit w)
    (value_eq : value v = value w) : 1 - v = 1 - w := by
  by_cases zero : value v = 0
  · have exact_one {v : Float} (inUnit : InUnit v) (zero : value v = 0) :
        value (1 - v) = value 1 := by
      have nearest := inUnit.nearest_one_sub
      rw [zero, sub_zero, ← value_one] at nearest
      exact nearest.value_eq rfl
    have one_eq := exact_one inUnit zero
    have one_eq' := exact_one inUnit' (value_eq ▸ zero)
    exact eq_of_value_eq inUnit.one_sub.finite inUnit'.one_sub.finite (one_eq.trans one_eq'.symm)
      (by rw [one_eq, value_one]; exact one_ne_zero)
  · rw [eq_of_value_eq inUnit.finite inUnit'.finite value_eq zero]

end Congruence

end Double

namespace Selection

open Double

section Place

/-- The lowest of values. -/
def lowest (values : List Float) : Float := Scalar.minimum Scalar.posInf values

/-- How far values spread. -/
def spread (values : List Float) : Float := Scalar.maximum Scalar.negInf values - lowest values

/-- Where a value lies on the range that values cover. -/
def place (values : List Float) (v : Float) : Float :=
  if Scalar.lt 0 (spread values) then (v - lowest values) / spread values else 0

theorem normalize_eq (values : List Float) : normalize values = values.map (place values) := rfl

variable {values values' : List Float} {v : Float}

/-- Finite values that are not negative, as errors and complexities are. -/
structure Amounts (values : List Float) : Prop where
  finite : ∀ v ∈ values, v.isFinite = true
  nonneg : ∀ v ∈ values, 0 ≤ value v

theorem Amounts.perm (amounts : Amounts values) (perm : values.Perm values') : Amounts values' where
  finite v member := amounts.finite v (perm.mem_iff.mpr member)
  nonneg v member := amounts.nonneg v (perm.mem_iff.mpr member)

theorem Amounts.lowest_spec (amounts : Amounts values) (member : v ∈ values) :
    lowest values ∈ values ∧ ∀ v ∈ values, value (lowest values) ≤ value v := by
  obtain ⟨is_value, le⟩ := minimum_spec (List.ne_nil_of_mem member) amounts.finite
  exact ⟨is_value, fun v member => value_le_value_iff.mpr (le v member)⟩

theorem Amounts.highest_spec (amounts : Amounts values) (member : v ∈ values) :
    Scalar.maximum Scalar.negInf values ∈ values ∧
      ∀ v ∈ values, value v ≤ value (Scalar.maximum Scalar.negInf values) := by
  obtain ⟨is_value, le⟩ := maximum_spec (List.ne_nil_of_mem member) amounts.finite
  exact ⟨is_value, fun v member => value_le_value_iff.mpr (le v member)⟩

theorem Amounts.sub_lowest (amounts : Amounts values) (member : v ∈ values) :
    Nearest (value v - value (lowest values)) (v - lowest values) ∧
      (v - lowest values).isFinite = true ∧ 0 ≤ value (v - lowest values) := by
  obtain ⟨is_value, le⟩ := amounts.lowest_spec member
  have finite := amounts.finite v member
  have nearest := nearest_sub finite (amounts.finite _ is_value)
  have distance_nonneg := sub_nonneg.mpr (le v member)
  exact ⟨nearest, nearest.isFinite (a := 0) rfl finite (value_zero.trans_le distance_nonneg)
    (sub_le_self _ (amounts.nonneg _ is_value)), nearest.nonneg distance_nonneg⟩

theorem Amounts.isFinite_spread (amounts : Amounts values) (member : v ∈ values) :
    (spread values).isFinite = true :=
  (amounts.sub_lowest (amounts.highest_spec member).1).2.1

theorem Amounts.lt_spread_iff (amounts : Amounts values) (member : v ∈ values) :
    Scalar.lt 0 (spread values) = true ↔ 0 < value (spread values) := by
  have number := isNaN_of_finite (amounts.isFinite_spread member)
  change decide (0 < spread values) = true ↔ _
  rw [decide_eq_true_iff, lt_iff rfl number, ← value_lt_value_iff, value_zero]

/-- No value is farther from the lowest one than the values spread. -/
theorem Amounts.sub_lowest_le (amounts : Amounts values) (member : v ∈ values) :
    value (v - lowest values) ≤ value (spread values) := by
  obtain ⟨is_value, le⟩ := amounts.highest_spec member
  obtain ⟨is_low, -⟩ := amounts.lowest_spec member
  obtain ⟨nearest, -, -⟩ := amounts.sub_lowest member
  obtain ⟨nearest', -, -⟩ := amounts.sub_lowest is_value
  rcases lt_or_eq_of_le (le v member) with lt | same
  · exact nearest.value_le_value nearest' (sub_lt_sub_right lt _)
  · have low_finite := amounts.finite _ is_low
    exact (value_sub_congr (amounts.finite v member) (amounts.finite _ is_value) low_finite
      low_finite same rfl).le

/-- Every value has a place between zero and one. -/
theorem Amounts.inUnit_place (amounts : Amounts values) (member : v ∈ values) :
    InUnit (place values v) := by
  rw [place]
  split
  · rename_i wide
    have pos := (amounts.lt_spread_iff member).mp wide
    obtain ⟨-, distance_finite, distance_nonneg⟩ := amounts.sub_lowest member
    exact (nearest_div distance_finite (amounts.isFinite_spread member) pos.ne').inUnit
      (div_nonneg distance_nonneg pos.le) ((div_le_one pos).mpr (amounts.sub_lowest_le member))
  · exact ⟨rfl, value_zero.ge, value_zero.trans_le zero_le_one⟩

theorem Amounts.value_lowest_perm (amounts : Amounts values) (perm : values.Perm values')
    (member : v ∈ values) : value (lowest values) = value (lowest values') := by
  have amounts' : Amounts values' := amounts.perm perm
  obtain ⟨is_value, le⟩ := amounts.lowest_spec member
  obtain ⟨is_value', le'⟩ := amounts'.lowest_spec (perm.mem_iff.mp member)
  exact le_antisymm (le _ (perm.mem_iff.mpr is_value')) (le' _ (perm.mem_iff.mp is_value))

theorem Amounts.value_spread_perm (amounts : Amounts values) (perm : values.Perm values')
    (member : v ∈ values) : value (spread values) = value (spread values') := by
  have amounts' : Amounts values' := amounts.perm perm
  obtain ⟨is_value, le⟩ := amounts.highest_spec member
  obtain ⟨is_value', le'⟩ := amounts'.highest_spec (perm.mem_iff.mp member)
  have highest_eq : value (Scalar.maximum Scalar.negInf values) =
      value (Scalar.maximum Scalar.negInf values') :=
    le_antisymm (le' _ (perm.mem_iff.mp is_value)) (le _ (perm.mem_iff.mpr is_value'))
  exact value_sub_congr (amounts.finite _ is_value) (amounts'.finite _ is_value')
    (amounts.finite _ (amounts.lowest_spec member).1)
    (amounts'.finite _ (amounts'.lowest_spec (perm.mem_iff.mp member)).1) highest_eq
    (amounts.value_lowest_perm perm member)

theorem Amounts.value_place_perm (amounts : Amounts values) (perm : values.Perm values')
    (member : v ∈ values) : value (place values v) = value (place values' v) := by
  have amounts' : Amounts values' := amounts.perm perm
  have member' := perm.mem_iff.mp member
  have spread_eq := amounts.value_spread_perm perm member
  have wide_iff := amounts.lt_spread_iff member
  have wide_iff' := amounts'.lt_spread_iff member'
  by_cases wide : 0 < value (spread values)
  · obtain ⟨-, distance_finite, -⟩ := amounts.sub_lowest member
    obtain ⟨-, distance_finite', -⟩ := amounts'.sub_lowest member'
    have finite := amounts.finite v member
    have distance_eq := value_sub_congr finite finite
      (amounts.finite _ (amounts.lowest_spec member).1)
      (amounts'.finite _ (amounts'.lowest_spec member').1) rfl
      (amounts.value_lowest_perm perm member)
    rw [place, place, if_pos (wide_iff.mpr wide), if_pos (wide_iff'.mpr (spread_eq ▸ wide))]
    exact value_div_congr distance_finite distance_finite' (amounts.isFinite_spread member)
      (amounts'.isFinite_spread member') distance_eq spread_eq wide.ne'
  · rw [place, place, if_neg (mt wide_iff.mp wide),
      if_neg (mt wide_iff'.mp (spread_eq ▸ wide))]

end Place

section Fill

variable {errors errors' : List Float} {e : Float}

/-- The greatest finite double. -/
def greatest : Float := Float.ofBits 0x7fefffffffffffff

theorem value_greatest : value greatest = (2 ^ 53 - 1 : ℕ) * 2 ^ (971 : ℤ) := by
  have units_eq : units greatest = (scaled (2 ^ 53 - 1) 971 : ℕ) := by decide +kernel
  rw [value, units_eq]
  exact units_finite .positive (by decide) (by decide)

theorem value_le_greatest (finite : e.isFinite = true) : value e ≤ value greatest := by
  rw [value_greatest]
  exact value_le_of_lt_two_pow finite (by decide)
    ((isFinite_iff_value (isNaN_of_finite finite)).mp finite).2

theorem isFinite_invalidGap : (invalidGap : Float).isFinite = true := by decide +kernel

theorem value_invalidGap_pos : 0 < value invalidGap := by
  rw [← value_zero, value_lt_value_iff, ← lt_iff rfl (isNaN_of_finite isFinite_invalidGap)]
  decide +kernel

theorem invalidFill_eq_zero (none_valid : ∀ e ∈ errors, ¬e.isFinite = true) :
    invalidFill errors = 0 := by
  have none_left : errors.filter (fun e => Scalar.isFinite e) = [] :=
    List.filter_eq_nil_iff.mpr none_valid
  rw [invalidFill, worstFinite, none_left]
  rfl

/-- Errors as they are measured: none of the finite ones is negative. -/
def Measured (errors : List Float) : Prop := ∀ e ∈ errors, e.isFinite = true → 0 ≤ value e

/-- The gap above the worst valid error leads to a finite number, and not below zero. -/
theorem Measured.worst_add_gap (measured : Measured errors) (member : e ∈ errors)
    (finite : e.isFinite = true) :
    (worstFinite errors + invalidGap).isFinite = true ∧
      0 ≤ value (worstFinite errors + invalidGap) := by
  obtain ⟨is_error, worst_finite, -⟩ := worstFinite_spec member finite
  have worst_nonneg := measured _ is_error worst_finite
  have gap_pos := value_invalidGap_pos
  have nearest := nearest_add worst_finite isFinite_invalidGap
  have nonneg := nearest.nonneg (by linarith)
  have greatest_finite : greatest.isFinite = true := by decide +kernel
  have absorbed : greatest + invalidGap = greatest := by decide +kernel
  have le_greatest : value (worstFinite errors + invalidGap) ≤ value greatest := by
    rcases lt_or_eq_of_le (value_le_greatest worst_finite) with lt | same
    · have le := nearest.value_le_value (nearest_add greatest_finite isFinite_invalidGap)
        (add_lt_add_left lt _)
      rwa [absorbed] at le
    · have is_greatest : worstFinite errors = greatest :=
        eq_of_value_eq worst_finite greatest_finite same
          (same ▸ (gap_pos.trans_le (value_le_greatest isFinite_invalidGap)).ne')
      rw [is_greatest, absorbed]
  exact ⟨isFinite_of_between nearest.number (a := 0) rfl greatest_finite
    (value_le_value_iff.mp (value_zero.trans_le nonneg)) (value_le_value_iff.mp le_greatest),
    nonneg⟩

theorem Measured.invalidFill_spec (measured : Measured errors) :
    (invalidFill errors).isFinite = true ∧ 0 ≤ value (invalidFill errors) := by
  by_cases some_valid : ∃ e ∈ errors, e.isFinite = true
  · obtain ⟨e, member, finite⟩ := some_valid
    have fill_eq : invalidFill errors = worstFinite errors + invalidGap :=
      if_pos (worstFinite_spec member finite).2.1
    rw [fill_eq]
    exact measured.worst_add_gap member finite
  · rw [invalidFill_eq_zero fun e member finite => some_valid ⟨e, member, finite⟩]
    exact ⟨rfl, value_zero.ge⟩

theorem Measured.amounts (measured : Measured errors) : Amounts (fillInvalid errors) := by
  obtain ⟨fill_finite, fill_nonneg⟩ := measured.invalidFill_spec
  have each : ∀ v ∈ fillInvalid errors, v.isFinite = true ∧ 0 ≤ value v := by
    intro v member
    obtain ⟨e, is_error, rfl⟩ := List.mem_map.mp member
    by_cases finite : e.isFinite = true
    · rw [if_pos (show Scalar.isFinite e = true from finite)]
      exact ⟨finite, measured e is_error finite⟩
    · rw [if_neg (show ¬Scalar.isFinite e = true from finite)]
      exact ⟨fill_finite, fill_nonneg⟩
  exact ⟨fun v member => (each v member).1, fun v member => (each v member).2⟩

/-- What an invalid error counts as is the same in any order. -/
theorem Measured.invalidFill_perm (measured : Measured errors) (perm : errors.Perm errors') :
    invalidFill errors = invalidFill errors' := by
  by_cases some_valid : ∃ e ∈ errors, e.isFinite = true
  · obtain ⟨e, member, finite⟩ := some_valid
    have measured' : Measured errors' := fun e member => measured e (perm.mem_iff.mpr member)
    obtain ⟨is_error, worst_finite, le⟩ := worstFinite_spec member finite
    obtain ⟨is_error', worst_finite', le'⟩ := worstFinite_spec (perm.mem_iff.mp member) finite
    have worst_eq : value (worstFinite errors) = value (worstFinite errors') :=
      value_eq_value_iff.mpr (Int.le_antisymm (le' _ (perm.mem_iff.mp is_error) worst_finite)
        (le _ (perm.mem_iff.mpr is_error') worst_finite'))
    have fill_eq : invalidFill errors = worstFinite errors + invalidGap := if_pos worst_finite
    have fill_eq' : invalidFill errors' = worstFinite errors' + invalidGap := if_pos worst_finite'
    rw [fill_eq, fill_eq']
    by_cases zero : value (worstFinite errors) = 0
    · have nearest := nearest_add worst_finite isFinite_invalidGap
      have nearest' := nearest_add worst_finite' isFinite_invalidGap
      have gap_number := isNaN_of_finite isFinite_invalidGap
      rw [zero, zero_add] at nearest
      rw [← worst_eq, zero, zero_add] at nearest'
      have sum_eq := nearest.value_eq gap_number
      refine eq_of_value_eq (measured.worst_add_gap member finite).1
        (measured'.worst_add_gap (perm.mem_iff.mp member) finite).1
        (sum_eq.trans (nearest'.value_eq gap_number).symm) ?_
      rw [sum_eq]
      exact value_invalidGap_pos.ne'
    · rw [eq_of_value_eq worst_finite worst_finite' worst_eq zero]
  · have none_valid : ∀ e ∈ errors, ¬e.isFinite = true := fun e member finite =>
      some_valid ⟨e, member, finite⟩
    rw [invalidFill_eq_zero none_valid,
      invalidFill_eq_zero fun e member => none_valid e (perm.mem_iff.mpr member)]

theorem Measured.fillInvalid_perm (measured : Measured errors) (perm : errors.Perm errors') :
    (fillInvalid errors).Perm (fillInvalid errors') := by
  rw [fillInvalid, fillInvalid, measured.invalidFill_perm perm]
  exact perm.map _

end Fill

section Scores

variable {rci : Float}

theorem inUnit_of_isWeight (weight : Config.isWeight rci = true) : InUnit rci := by
  rw [Config.isWeight, Bool.and_eq_true, decide_eq_true_iff, decide_eq_true_iff] at weight
  obtain ⟨ge, le⟩ := weight
  have number := (isNaN_of_le ge).2
  rw [le_iff rfl number] at ge
  rw [le_iff number rfl] at le
  exact ⟨isFinite_of_between number (a := 0) (b := 1) rfl rfl ge le,
    value_zero ▸ value_le_value_iff.mpr ge, value_one ▸ value_le_value_iff.mpr le⟩

theorem isFinite_score {error complexity : Float} (rci_unit : InUnit rci)
    (error_unit : InUnit error) (complexity_unit : InUnit complexity) :
    (score rci error complexity).isFinite = true :=
  (rci_unit.one_sub.mul error_unit.one_sub).isFinite_add (rci_unit.mul complexity_unit.one_sub)

end Scores

end Selection
end FormulaFit
