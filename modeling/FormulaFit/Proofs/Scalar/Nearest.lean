import FormulaFit.Proofs.Scalar.Order

/-!
# Correct rounding

Every double but the undefined one has a rational value; infinity counts as the power of two that
comes after the greatest finite double.  Sums, differences, products and quotients of finite doubles
are doubles nearest to the exact results, so a result that is a double is exact, and greater exact
results do not have lesser doubles.
-/

namespace FormulaFit
namespace Double

open Float.Model Float.Model.UnpackedFloat

section Mantissa

/-- The number that a mantissa and the bits cut off from it stand for. -/
inductive Describes : ExtendedMantissa → ℚ → Prop
  | whole {m : Nat} {q : ℚ} (eq : q = m) : Describes ⟨m, false, false⟩ q
  | below_half {m : Nat} {q : ℚ} (gt : m < q) (lt : q < m + 1 / 2) : Describes ⟨m, false, true⟩ q
  | half {m : Nat} {q : ℚ} (eq : q = m + 1 / 2) : Describes ⟨m, true, false⟩ q
  | above_half {m : Nat} {q : ℚ} (gt : m + 1 / 2 < q) (lt : q < m + 1) : Describes ⟨m, true, true⟩ q

variable {extended : ExtendedMantissa} {q : ℚ}

theorem shiftRightOne_even (k : Nat) (round sticky : Bool) :
    ExtendedMantissa.shiftRightOne ⟨2 * k, round, sticky⟩ = ⟨k, false, round || sticky⟩ := by
  simp [ExtendedMantissa.shiftRightOne]

theorem shiftRightOne_odd (k : Nat) (round sticky : Bool) :
    ExtendedMantissa.shiftRightOne ⟨2 * k + 1, round, sticky⟩ = ⟨k, true, round || sticky⟩ := by
  have half_eq : (2 * k + 1) / 2 = k := by omega
  simp [ExtendedMantissa.shiftRightOne, half_eq]

theorem Describes.shiftRightOne (describes : Describes extended q) :
    Describes extended.shiftRightOne (q / 2) := by
  cases describes with
  | @whole m q eq =>
      obtain ⟨k, rfl | rfl⟩ := Nat.even_or_odd' m <;> push_cast at eq
      · exact shiftRightOne_even .. ▸ .whole (by linarith)
      · exact shiftRightOne_odd .. ▸ .half (by linarith)
  | @below_half m q gt lt =>
      obtain ⟨k, rfl | rfl⟩ := Nat.even_or_odd' m <;> push_cast at gt lt
      · exact shiftRightOne_even .. ▸ .below_half (by linarith) (by linarith)
      · exact shiftRightOne_odd .. ▸ .above_half (by linarith) (by linarith)
  | @half m q eq =>
      obtain ⟨k, rfl | rfl⟩ := Nat.even_or_odd' m <;> push_cast at eq
      · exact shiftRightOne_even .. ▸ .below_half (by linarith) (by linarith)
      · exact shiftRightOne_odd .. ▸ .above_half (by linarith) (by linarith)
  | @above_half m q gt lt =>
      obtain ⟨k, rfl | rfl⟩ := Nat.even_or_odd' m <;> push_cast at gt lt
      · exact shiftRightOne_even .. ▸ .below_half (by linarith) (by linarith)
      · exact shiftRightOne_odd .. ▸ .above_half (by linarith) (by linarith)

theorem Describes.shiftRight (describes : Describes extended q) (places : Nat) :
    Describes (extended >>> places) (q / 2 ^ places) := by
  induction places with
  | zero =>
      rw [pow_zero, div_one]
      exact describes
  | succ places ih =>
      rw [pow_succ, ← div_div]
      exact ih.shiftRightOne

/-- A rounded mantissa is off by one half at most. -/
theorem Describes.abs_sub_le (describes : Describes extended q) :
    |(extended.roundedMantissa : ℚ) - q| ≤ 1 / 2 := by
  cases describes with
  | @whole m q eq =>
      change |(m : ℚ) - q| ≤ 1 / 2
      rw [eq, sub_self, abs_zero]
      norm_num
  | @below_half m q gt lt =>
      change |(m : ℚ) - q| ≤ 1 / 2
      rw [abs_le]
      constructor <;> linarith
  | @half m q eq =>
      change |((m + m % 2 : Nat) : ℚ) - q| ≤ 1 / 2
      rcases Nat.mod_two_eq_zero_or_one m with even | odd
      · rw [even, eq, abs_le]
        constructor <;> push_cast <;> linarith
      · rw [odd, eq, abs_le]
        constructor <;> push_cast <;> linarith
  | @above_half m q gt lt =>
      change |((m + 1 : Nat) : ℚ) - q| ≤ 1 / 2
      rw [abs_le]
      constructor <;> push_cast <;> linarith

theorem Describes.mantissa_le (describes : Describes extended q) : extended.mantissa ≤ q := by
  cases describes with
  | whole eq => exact eq.ge
  | below_half gt lt => exact gt.le
  | half eq =>
      rw [eq]
      exact le_add_of_nonneg_right (by norm_num)
  | above_half gt lt => exact le_trans (le_add_of_nonneg_right (by norm_num)) gt.le

theorem abs_sub_le_of_le_half {r : ℤ} (close : |(r : ℚ) - q| ≤ 1 / 2) (n : ℤ) :
    |(r : ℚ) - q| ≤ |(n : ℚ) - q| := by
  rcases eq_or_ne n r with rfl | other
  · rfl
  · have apart : (1 : ℚ) ≤ |(n : ℚ) - r| := by
      exact_mod_cast Int.one_le_abs (sub_ne_zero.mpr other)
    have triangle : |(n : ℚ) - r| ≤ |(n : ℚ) - q| + |(r : ℚ) - q| := by
      rw [abs_sub_comm (r : ℚ) q]
      exact abs_sub_le (n : ℚ) q r
    linarith

end Mantissa

section Grid

/-- A number is nearest to another one among those with a mantissa of 53 bits. -/
def IsNearest (x y : ℚ) : Prop :=
  ∀ (m : Nat) (e : ℤ), m < 2 ^ 53 → -1074 ≤ e → |y - x| ≤ |m * 2 ^ e - x|

variable {q : ℚ} {target : ℤ}

/-- The whole number within one half, at a place that leaves no bit for a lesser one. -/
theorem isNearest_of_le_half {r : Nat} (close : |(r : ℚ) - q| ≤ 1 / 2)
    (leading : 2 ^ 52 ≤ q ∨ target = -1074) : IsNearest (q * 2 ^ target) (r * 2 ^ target) := by
  intro m e m_lt e_ge
  have unit_pos : (0 : ℚ) < 2 ^ target := zpow_pos two_pos target
  have nearest := fun n => abs_sub_le_of_le_half (r := r) (q := q) (by exact_mod_cast close) n
  have split : (m * 2 ^ e : ℚ) = m * 2 ^ (e - target) * 2 ^ target := by
    rw [mul_assoc, ← zpow_add₀ two_ne_zero, sub_add_cancel]
  rw [split, ← sub_mul, ← sub_mul, abs_mul, abs_mul]
  refine mul_le_mul_of_nonneg_right ?_ (abs_nonneg _)
  rcases le_or_gt target e with le | lt
  · obtain ⟨places, places_eq⟩ := Int.eq_ofNat_of_zero_le (sub_nonneg.mpr le)
    have whole := nearest (m * 2 ^ places : ℕ)
    rw [places_eq, zpow_natCast]
    exact_mod_cast whole
  · have leading := leading.resolve_right (by omega)
    have below : (m * 2 ^ (e - target) : ℚ) ≤ 2 ^ 52 := by
      calc
        (m * 2 ^ (e - target) : ℚ) ≤ 2 ^ 53 * 2 ^ (-1 : ℤ) := by
          refine mul_le_mul (by exact_mod_cast m_lt.le) ?_ (zpow_nonneg two_pos.le _) (by norm_num)
          exact zpow_le_zpow_right₀ one_le_two (by omega)
        _ = 2 ^ 52 := by norm_num
    obtain ⟨least, least_eq⟩ : ∃ least : ℤ, (least : ℚ) = 2 ^ 52 := ⟨2 ^ 52, by norm_num⟩
    calc
      |(r : ℚ) - q| ≤ |(least : ℚ) - q| := nearest least
      _ = q - least := by rw [abs_sub_comm, abs_of_nonneg (by linarith)]
      _ ≤ q - m * 2 ^ (e - target) := by linarith
      _ ≤ |m * 2 ^ (e - target) - q| := by
        rw [abs_sub_comm]
        exact le_abs_self _

end Grid

section Rounding

variable {m r mantissa : Nat} {e exponent target : ℤ} {q : ℚ}

/-- The result of a rounding has all significant bits in the mantissa, unless the exponent is the
least one.  Its exponent may be too great for a double. -/
structure Rounded (m : Nat) (e : Int) : Prop where
  mantissa_lt : m < 2 ^ 53
  exponent_ge : -1074 ≤ e
  leading : 2 ^ 52 ≤ m ∨ e = -1074

theorem mantissa_shiftRight (extended : ExtendedMantissa) (places : Nat) :
    (extended >>> places).mantissa = extended.mantissa / 2 ^ places := by
  induction places with
  | zero => exact (Nat.div_one _).symm
  | succ places ih =>
      change (extended >>> places).mantissa / 2 = _
      rw [ih, Nat.div_div_eq_div_mul, Nat.pow_succ]

theorem roundedMantissa_bounds (extended : ExtendedMantissa) :
    extended.mantissa ≤ extended.roundedMantissa ∧
      extended.roundedMantissa ≤ extended.mantissa + 1 := by
  obtain ⟨mantissa, round, sticky⟩ := extended
  cases round <;> cases sticky <;>
    simp only [ExtendedMantissa.roundedMantissa, ExtendedMantissa.accuracy,
      Accuracy.roundToNearestEven] <;> omega

theorem targetExponent_eq (mantissa : Nat) (exponent : Int) :
    Format.binary64.targetExponent (totalExponent mantissa exponent) =
      max (mantissa.log2 + exponent - 52) (-1074) := by
  change max (((mantissa.log2 : Nat) : Int) + 1 + exponent - 53) (-1074) = _
  omega

theorem shiftToTargetExponent_of_lt (lt : m < 2 ^ 53) (exponent_ge : -1074 ≤ e) :
    shiftToTargetExponent Format.binary64 m e .exact = (⟨m, false, false⟩, e) := by
  have log2_le : m.log2 ≤ 52 := by
    rcases Nat.eq_zero_or_pos m with rfl | pos
    · decide
    · exact Nat.le_of_lt_succ ((Nat.log2_lt (Nat.ne_of_gt pos)).mpr lt)
  have unshifted : (max (m.log2 + e - 52) (-1074) - e).toNat = 0 := by omega
  rw [shiftToTargetExponent, targetExponent_eq, shiftToExponent, unshifted]
  simp only [Int.natCast_zero, Int.add_zero]
  rfl

theorem shiftToTargetExponent_carry (exponent_ge : -1074 ≤ e) :
    shiftToTargetExponent Format.binary64 (2 ^ 53) e .exact = (⟨2 ^ 52, false, false⟩, e + 1) := by
  have shifted : (max ((2 ^ 53 : Nat).log2 + e - 52) (-1074) - e).toNat = 1 := by
    rw [Nat.log2_two_pow]
    omega
  rw [shiftToTargetExponent, targetExponent_eq, shiftToExponent, shifted]
  rfl

theorem rounded_quotient
    (target_eq : target = max (mantissa.log2 + exponent - 52) (-1074))
    (exponent_le : exponent ≤ target) :
    Rounded (mantissa / 2 ^ (target - exponent).toNat) target where
  mantissa_lt := by
    have mantissa_lt := Nat.lt_log2_self (n := mantissa)
    rw [Nat.div_lt_iff_lt_mul (Nat.two_pow_pos _), ← Nat.pow_add]
    exact Nat.lt_of_lt_of_le mantissa_lt (Nat.pow_le_pow_right Nat.two_pos (by omega))
  exponent_ge := by omega
  leading := by
    by_cases least : target = -1074
    · exact .inr least
    · have nonzero : mantissa ≠ 0 := fun zero => by
        rw [zero, Nat.log2_zero] at target_eq
        omega
      refine .inl ((Nat.le_div_iff_mul_le (Nat.two_pow_pos _)).mpr ?_)
      rw [← Nat.pow_add]
      exact Nat.le_trans (Nat.pow_le_pow_right Nat.two_pos (by omega))
        (Nat.log2_self_le nonzero)

theorem mantissa_ofMantissaAndAccuracy (mantissa : Nat) (accuracy : Accuracy) :
    (ExtendedMantissa.ofMantissaAndAccuracy mantissa accuracy).mantissa = mantissa := by
  cases accuracy with
  | exact => rfl
  | inexact order => cases order <;> rfl

/-- A mantissa that was rounded up beyond its bits is shifted once more, which loses nothing. -/
theorem exists_carried (r_le : r ≤ 2 ^ 53) (target_ge : -1074 ≤ target)
    (leading : 2 ^ 52 ≤ r ∨ target = -1074) :
    ∃ m e, shiftToTargetExponent Format.binary64 r target .exact = (⟨m, false, false⟩, e) ∧
      Rounded m e ∧ (m * 2 ^ e : ℚ) = r * 2 ^ target := by
  rcases Nat.lt_or_eq_of_le r_le with lt | rfl
  · exact ⟨r, target, shiftToTargetExponent_of_lt lt target_ge, ⟨lt, target_ge, leading⟩, rfl⟩
  · refine ⟨_, _, shiftToTargetExponent_carry target_ge,
      ⟨by decide, by omega, .inl (Nat.le_refl _)⟩, ?_⟩
    rw [zpow_add_one₀ two_ne_zero]
    push_cast
    ring

theorem exists_roundWithAccuracy (sign : Sign) {accuracy : Accuracy}
    (describes : Describes (.ofMantissaAndAccuracy mantissa accuracy) q)
    (exponent_le : exponent ≤ max (mantissa.log2 + exponent - 52) (-1074)) :
    ∃ m e, roundWithAccuracy Format.binary64 sign mantissa exponent accuracy =
        (if zero : m = 0 then .zero sign else .finite sign m e (Nat.pos_of_ne_zero zero)) ∧
      Rounded m e ∧ IsNearest (q * 2 ^ exponent) (m * 2 ^ e) := by
  obtain ⟨target, target_eq⟩ :
      ∃ target, target = max (mantissa.log2 + exponent - 52) (-1074) := ⟨_, rfl⟩
  obtain ⟨places, places_eq⟩ : ∃ places, places = (target - exponent).toNat := ⟨_, rfl⟩
  rw [← target_eq] at exponent_le
  have target_eq' : exponent + places = target := by omega
  have quotient := rounded_quotient target_eq exponent_le
  have cut := describes.shiftRight places
  have shifted : shiftToTargetExponent Format.binary64 mantissa exponent accuracy =
      (ExtendedMantissa.ofMantissaAndAccuracy mantissa accuracy >>> places, target) := by
    rw [shiftToTargetExponent, targetExponent_eq, ← target_eq, shiftToExponent, ← places_eq,
      target_eq']
  obtain ⟨r_ge, r_le⟩ :=
    roundedMantissa_bounds (ExtendedMantissa.ofMantissaAndAccuracy mantissa accuracy >>> places)
  have mantissa_eq := mantissa_shiftRight (.ofMantissaAndAccuracy mantissa accuracy) places
  rw [mantissa_ofMantissaAndAccuracy] at mantissa_eq
  rw [← places_eq, ← mantissa_eq] at quotient
  obtain ⟨m, e, carried, rounded, value_eq⟩ := exists_carried
    (Nat.le_trans r_le quotient.mantissa_lt) quotient.exponent_ge
    (quotient.leading.imp_left fun leading => Nat.le_trans leading r_ge)
  refine ⟨m, e, ?_, rounded, ?_⟩
  · simp only [roundWithAccuracy, shifted, carried]
  · have moved : q * 2 ^ exponent = q / 2 ^ places * 2 ^ target := by
      rw [← target_eq', zpow_add₀ two_ne_zero, zpow_natCast]
      field_simp
    rw [value_eq, moved]
    refine isNearest_of_le_half cut.abs_sub_le (quotient.leading.imp_left fun leading => ?_)
    exact le_trans (by exact_mod_cast leading) cut.mantissa_le

end Rounding

section Value

variable {a b v w : Float} {m : Nat} {e : ℤ} {x y : ℚ}

/-- The value of a double; infinity counts as the power of two behind the greatest finite one. -/
def value (v : Float) : ℚ := units v / 2 ^ 1074

/-- A double whose units are a power of two stands for a power of two. -/
theorem value_eq_zpow {v : Float} (n : Nat) (units_eq : units v = 2 ^ n) :
    value v = 2 ^ ((n : ℤ) - 1074) := by
  rw [value, units_eq, Int.cast_pow, Int.cast_ofNat, zpow_sub₀ two_ne_zero, zpow_natCast]
  rfl

theorem value_le_value_iff : value v ≤ value w ↔ units v ≤ units w := by
  rw [value, value, div_le_div_iff_of_pos_right (by positivity), Int.cast_le]

theorem value_lt_value_iff : value v < value w ↔ units v < units w := by
  rw [value, value, div_lt_div_iff_of_pos_right (by positivity), Int.cast_lt]

theorem value_eq_value_iff : value v = value w ↔ units v = units w := by
  rw [le_antisymm_iff, le_antisymm_iff, value_le_value_iff, value_le_value_iff]

/-- The number or its opposite. -/
def signed : Sign → ℚ → ℚ
  | .positive, x => x
  | .negative, x => -x

theorem signed_neg (sign : Sign) (x : ℚ) : signed (-sign) x = -signed sign x := by
  cases sign
  · exact (neg_neg x).symm
  · rfl

theorem units_infinity (sign : Sign) :
    (unpackedUnits (.infinity sign) : ℚ) / 2 ^ 1074 = signed sign (1 * 2 ^ (1024 : ℤ)) := by
  have magnitude : ((infinityUnits : ℤ) : ℚ) / 2 ^ 1074 = 1 * 2 ^ (1024 : ℤ) := by
    rw [infinityUnits, Int.cast_natCast, Nat.cast_pow, div_eq_iff (by positivity), one_mul,
      ← zpow_natCast, ← zpow_natCast, ← zpow_add₀ two_ne_zero]
    rfl
  cases sign with
  | positive => exact magnitude
  | negative =>
      change ((-(infinityUnits : ℤ) : ℤ) : ℚ) / 2 ^ 1074 = -(1 * 2 ^ (1024 : ℤ))
      rw [← magnitude, Int.cast_neg, neg_div]

theorem units_finite (sign : Sign) (pos : 0 < m) (e_ge : -1074 ≤ e) :
    (unpackedUnits (.finite sign m e pos) : ℚ) / 2 ^ 1074 = signed sign (m * 2 ^ e) := by
  obtain ⟨places, places_eq⟩ := Int.eq_ofNat_of_zero_le (show 0 ≤ e + 1074 by omega)
  have magnitude : (((scaled m e : ℕ) : ℤ) : ℚ) / 2 ^ 1074 = m * 2 ^ e := by
    have moved : e = places - (1074 : ℕ) := by omega
    rw [scaled, places_eq, moved, zpow_sub₀ two_ne_zero, zpow_natCast, zpow_natCast,
      Int.toNat_natCast, ← mul_div_assoc, Int.cast_natCast, Nat.cast_mul, Nat.cast_pow]
    rfl
  cases sign with
  | positive => exact magnitude
  | negative =>
      change ((-(scaled m e : ℤ) : ℤ) : ℚ) / 2 ^ 1074 = -(m * 2 ^ e)
      rw [← magnitude, Int.cast_neg, neg_div]

theorem exists_signed (number : v.isNaN = false) :
    ∃ sign, ∃ m : Nat, ∃ e : ℤ, m < 2 ^ 53 ∧ -1074 ≤ e ∧ (m * 2 ^ e : ℚ) ≤ 1 * 2 ^ (1024 : ℤ) ∧
      value v = signed sign (m * 2 ^ e) := by
  have numeric := numeric_unpack number
  rw [value, units]
  generalize v.toModel.unpack = u at numeric
  have infinity_nonneg : (0 : ℚ) ≤ 1 * 2 ^ (1024 : ℤ) := by positivity
  cases numeric with
  | zero sign =>
      refine ⟨.positive, 0, 0, by decide, by decide, ?_, ?_⟩
      · rwa [Nat.cast_zero, zero_mul]
      · simp [unpackedUnits, signed]
  | infinity sign =>
      exact ⟨sign, 1, 1024, by decide, by decide, by rw [Nat.cast_one],
        (units_infinity sign).trans (by rw [Nat.cast_one])⟩
  | @finite sign m e pos canonical =>
      have e_ge := canonical.exponent_ge
      refine ⟨sign, m, e, canonical.mantissa_lt, e_ge, ?_, units_finite sign pos e_ge⟩
      have below : ((scaled m e : ℤ) : ℚ) ≤ (infinityUnits : ℤ) := by
        exact_mod_cast canonical.scaled_lt_infinityUnits.le
      have magnitude : ((scaled m e : ℤ) : ℚ) / 2 ^ 1074 = m * 2 ^ e :=
        units_finite .positive pos e_ge
      have infinite : ((infinityUnits : ℤ) : ℚ) / 2 ^ 1074 = 1 * 2 ^ (1024 : ℤ) :=
        units_infinity .positive
      rw [← magnitude, ← infinite]
      exact div_le_div_of_nonneg_right below (by positivity)

end Value

section Packing

variable {v w : Float} {m : Nat} {e : ℤ} {x y : ℚ}

/-- A double is a number, and no other one is nearer to the exact number. -/
structure Nearest (x : ℚ) (v : Float) : Prop where
  number : v.isNaN = false
  le : ∀ d : Float, d.isNaN = false → |value v - x| ≤ |value d - x|

theorem IsNearest.le_signed (nearest : IsNearest x y) (nonneg : 0 ≤ x) (sign : Sign)
    (m_lt : m < 2 ^ 53) (e_ge : -1074 ≤ e) : |y - x| ≤ |signed sign (m * 2 ^ e) - x| := by
  cases sign with
  | positive => exact nearest m e m_lt e_ge
  | negative =>
      have magnitude_nonneg : (0 : ℚ) ≤ m * 2 ^ e := by positivity
      have zero := nearest 0 0 (by decide) (by decide)
      rw [Nat.cast_zero, zero_mul, zero_sub, abs_neg, abs_of_nonneg nonneg] at zero
      change |y - x| ≤ |-(m * 2 ^ e) - x|
      rw [abs_of_nonpos (by linarith : -(m * 2 ^ e : ℚ) - x ≤ 0)]
      linarith

theorem signed_sub_signed (sign sign' : Sign) (x y : ℚ) :
    |signed sign' y - signed sign x| = |signed (sign * sign') y - x| := by
  cases sign <;> cases sign'
  · change |-y - -x| = |y - x|
    rw [← neg_sub', abs_neg]
  · change |y - -x| = |-y - x|
    rw [← abs_neg (y - -x)]
    ring_nf
  · rfl
  · rfl

/-- The double with what it unpacks to. -/
def ofUnpacked (u : UnpackedFloat) : Float := Float.ofModel (Float.Model.pack u)

theorem nearest_of_magnitude (sign : Sign) (number : v.isNaN = false)
    (value_eq : value v = signed sign y)
    (nearest : ∀ (sign : Sign) (m : Nat) (e : ℤ), m < 2 ^ 53 → -1074 ≤ e →
      (m * 2 ^ e : ℚ) ≤ 1 * 2 ^ (1024 : ℤ) → |y - x| ≤ |signed sign (m * 2 ^ e) - x|) :
    Nearest (signed sign x) v where
  number := number
  le d d_number := by
    obtain ⟨sign', m, e, m_lt, e_ge, le_infinity, d_eq⟩ := exists_signed d_number
    have own : sign * sign = .positive := by cases sign <;> rfl
    rw [value_eq, d_eq, signed_sub_signed, signed_sub_signed, own]
    exact nearest (sign * sign') m e m_lt e_ge le_infinity

theorem value_ofUnpacked {u u' : UnpackedFloat} (unpacked : UnpackedFloat.unpack Format.binary64
    (UnpackedFloat.pack Format.binary64 u) = u') :
    value (ofUnpacked u) = unpackedUnits u' / 2 ^ 1074 := by
  rw [← unpacked]
  rfl

theorem IsNearest.le_infinity (nearest : IsNearest x (m * 2 ^ e)) (nonneg : 0 ≤ x)
    (leading : 2 ^ 52 ≤ m) (beyond : 972 ≤ e) (sign : Sign) {m' : Nat} {e' : ℤ}
    (m'_lt : m' < 2 ^ 53)
    (e'_ge : -1074 ≤ e') (le_infinity : (m' * 2 ^ e' : ℚ) ≤ 1 * 2 ^ (1024 : ℤ)) :
    |1 * 2 ^ (1024 : ℤ) - x| ≤ |signed sign (m' * 2 ^ e') - x| := by
  have infinity_le : (1 * 2 ^ (1024 : ℤ) : ℚ) ≤ m * 2 ^ e := by
    calc
      (1 * 2 ^ (1024 : ℤ) : ℚ) = 2 ^ 52 * 2 ^ (972 : ℤ) := by
        rw [one_mul, ← zpow_natCast, ← zpow_add₀ two_ne_zero]
        rfl
      _ ≤ m * 2 ^ e := by
        refine mul_le_mul (by exact_mod_cast leading) ?_ (by positivity) (by positivity)
        exact zpow_le_zpow_right₀ one_le_two beyond
  generalize infinity_eq : (1 * 2 ^ (1024 : ℤ) : ℚ) = infinity at infinity_le le_infinity ⊢
  rcases le_or_gt infinity x with le | lt
  · have magnitude_nonneg : (0 : ℚ) ≤ m' * 2 ^ e' := by positivity
    have signed_le : signed sign (m' * 2 ^ e') ≤ infinity := by
      cases sign with
      | positive => exact le_infinity
      | negative =>
          exact (neg_nonpos.mpr magnitude_nonneg).trans (magnitude_nonneg.trans le_infinity)
    rw [abs_of_nonpos (by linarith), abs_of_nonpos (by linarith)]
    linarith
  · -- The rounded number cannot be above infinity, which is as good a result.
    have as_near := nearest 1 1024 (by decide) (by decide)
    rw [Nat.cast_one, infinity_eq, abs_of_nonneg (by linarith), abs_of_nonneg (by linarith)]
      at as_near
    have same : infinity = m * 2 ^ e := le_antisymm infinity_le (by linarith)
    rw [same]
    exact nearest.le_signed nonneg sign m'_lt e'_ge

/-- What is rounded is packed into a nearest double, infinity if it is too great. -/
theorem nearest_ofUnpacked (sign : Sign) (nonneg : 0 ≤ x) (rounded : Rounded m e)
    (nearest : IsNearest x (m * 2 ^ e)) :
    Nearest (signed sign x) (ofUnpacked
      (if zero : m = 0 then .zero sign else .finite sign m e (Nat.pos_of_ne_zero zero))) := by
  have e_ge := rounded.exponent_ge
  by_cases zero : m = 0
  · rw [dif_pos zero]
    subst zero
    have unpacked := unpack_pack_zero sign
    have value_eq : value (ofUnpacked (.zero sign)) = signed sign ((0 : ℕ) * 2 ^ e) := by
      rw [value_ofUnpacked unpacked]
      cases sign <;> simp [unpackedUnits, signed]
    exact nearest_of_magnitude sign (congrArg UnpackedFloat.isNaN unpacked) value_eq
      fun sign m e m_lt e_ge _ => nearest.le_signed nonneg sign m_lt e_ge
  · rw [dif_neg zero]
    have pos := Nat.pos_of_ne_zero zero
    rcases lt_or_ge e 972 with within | beyond
    · have unpacked := unpack_pack sign pos ⟨rounded.mantissa_lt, e_ge, within, rounded.leading⟩
      exact nearest_of_magnitude sign (congrArg UnpackedFloat.isNaN unpacked)
        ((value_ofUnpacked unpacked).trans (units_finite sign pos e_ge))
        fun sign m e m_lt e_ge _ => nearest.le_signed nonneg sign m_lt e_ge
    · have unpacked := unpack_pack_of_overflow sign pos beyond
      have leading := rounded.leading.resolve_right (by omega)
      exact nearest_of_magnitude sign (congrArg UnpackedFloat.isNaN unpacked)
        ((value_ofUnpacked unpacked).trans (units_infinity sign))
        fun sign m e m_lt e_ge le_infinity =>
          nearest.le_infinity nonneg leading beyond sign m_lt e_ge le_infinity

end Packing

section Operations

variable {a b v : Float} {m : Nat} {e : ℤ} {q x : ℚ}

/-- Rounding makes a nearest double. -/
theorem nearest_roundWithAccuracy (sign : Sign) (mantissa : Nat) (exponent : ℤ)
    (accuracy : Accuracy) (describes : Describes (.ofMantissaAndAccuracy mantissa accuracy) q)
    (exponent_le : exponent ≤ max (mantissa.log2 + exponent - 52) (-1074)) :
    Nearest (signed sign (q * 2 ^ exponent)) (ofUnpacked
      (roundWithAccuracy Format.binary64 sign mantissa exponent accuracy)) := by
  obtain ⟨m, e, rounded_eq, rounded, nearest⟩ := exists_roundWithAccuracy sign describes exponent_le
  have q_nonneg : 0 ≤ q := le_trans (Nat.cast_nonneg _) describes.mantissa_le
  rw [rounded_eq]
  exact nearest_ofUnpacked sign (mul_nonneg q_nonneg (zpow_nonneg two_pos.le _)) rounded nearest

theorem nearest_round (sign : Sign) {mantissa : Nat} (pos : 0 < mantissa) (exponent : ℤ) :
    Nearest (signed sign (mantissa * 2 ^ exponent)) (ofUnpacked
      (UnpackedFloat.round Format.binary64 sign mantissa exponent)) := by
  obtain ⟨target, target_eq⟩ : ∃ target, target = max (mantissa.log2 + exponent - 52) (-1074) :=
    ⟨_, rfl⟩
  obtain ⟨places, places_eq⟩ : ∃ places, places = (exponent - target).toNat := ⟨_, rfl⟩
  have log2_eq : (mantissa * 2 ^ places).log2 = places + mantissa.log2 := by
    rw [Nat.mul_comm, log2_two_pow_mul _ pos]
  have rounded := nearest_roundWithAccuracy sign (mantissa * 2 ^ places) (exponent - places) .exact
    (.whole rfl) (by omega)
  have value_eq : ((mantissa * 2 ^ places : ℕ) : ℚ) * 2 ^ (exponent - places) =
      mantissa * 2 ^ exponent := by
    rw [zpow_sub₀ two_ne_zero, zpow_natCast]
    push_cast
    field_simp
  rw [value_eq] at rounded
  rw [UnpackedFloat.round, targetExponent_eq, ← target_eq, decreaseExponent, Nat.shiftLeft_eq,
    ← places_eq]
  exact rounded

theorem nearest_of_value_eq (number : v.isNaN = false) (value_eq : value v = x) : Nearest x v where
  number := number
  le d _ := by
    rw [value_eq, sub_self, abs_zero]
    exact abs_nonneg _

theorem ofUnpacked_zero (sign : Sign) :
    (ofUnpacked (.zero sign)).isNaN = false ∧ value (ofUnpacked (.zero sign)) = 0 := by
  have unpacked := unpack_pack_zero sign
  refine ⟨congrArg UnpackedFloat.isNaN unpacked, ?_⟩
  rw [value_ofUnpacked unpacked, unpackedUnits, Int.cast_zero, zero_div]

theorem ofUnpacked_canonical (sign : Sign) (pos : 0 < m) (canonical : Canonical m e) :
    (ofUnpacked (.finite sign m e pos)).isNaN = false ∧
      value (ofUnpacked (.finite sign m e pos)) = signed sign (m * 2 ^ e) := by
  have unpacked := unpack_pack sign pos canonical
  refine ⟨congrArg UnpackedFloat.isNaN unpacked, ?_⟩
  rw [value_ofUnpacked unpacked, units_finite sign pos canonical.exponent_ge]

theorem nearest_zero (sign : Sign) : Nearest 0 (ofUnpacked (.zero sign)) :=
  nearest_of_value_eq (ofUnpacked_zero sign).1 (ofUnpacked_zero sign).2

theorem nearest_canonical (sign : Sign) (pos : 0 < m) (canonical : Canonical m e) :
    Nearest (signed sign (m * 2 ^ e)) (ofUnpacked (.finite sign m e pos)) :=
  nearest_of_value_eq (ofUnpacked_canonical sign pos canonical).1
    (ofUnpacked_canonical sign pos canonical).2

theorem nearest_normalize (mantissa exponent : ℤ) :
    Nearest (mantissa * 2 ^ exponent) (ofUnpacked
      (UnpackedFloat.normalize Format.binary64 mantissa exponent .positive)) := by
  rcases lt_trichotomy mantissa 0 with negative | rfl | positive
  · have rounded := nearest_round .negative (by omega : 0 < (-mantissa).toNat) exponent
    have magnitude : (((-mantissa).toNat : ℕ) : ℚ) = -mantissa := by
      exact_mod_cast Int.toNat_of_nonneg (by omega : 0 ≤ -mantissa)
    rw [magnitude, signed, neg_mul, neg_neg] at rounded
    rw [UnpackedFloat.normalize, compare_lt_iff_lt.mpr negative]
    exact rounded
  · rw [UnpackedFloat.normalize, compare_eq_iff_eq.mpr rfl, Int.cast_zero, zero_mul]
    exact nearest_zero .positive
  · have rounded := nearest_round .positive (by omega : 0 < mantissa.toNat) exponent
    have magnitude : ((mantissa.toNat : ℕ) : ℚ) = mantissa := by
      exact_mod_cast Int.toNat_of_nonneg (le_of_lt positive)
    rw [magnitude] at rounded
    rw [UnpackedFloat.normalize, compare_gt_iff_gt.mpr positive]
    exact rounded

/-- What a finite double with a value unpacks to. -/
inductive Unpacks : ℚ → UnpackedFloat → Prop
  | zero (sign : Sign) : Unpacks 0 (.zero sign)
  | finite (sign : Sign) {m : Nat} {e : ℤ} (pos : 0 < m) (canonical : Canonical m e) :
      Unpacks (signed sign (m * 2 ^ e)) (.finite sign m e pos)

theorem exists_unpacks (finite : v.isFinite = true) :
    ∃ x u, value v = x ∧ v.toModel.unpack = u ∧ Unpacks x u := by
  have value_def : value v = unpackedUnits v.toModel.unpack / 2 ^ 1074 := rfl
  change v.toModel.unpack.isFinite = true at finite
  refine ⟨_, _, rfl, rfl, ?_⟩
  cases unpacked : v.toModel.unpack with
  | notANumber | infinity =>
      rw [unpacked] at finite
      cases finite
  | zero sign =>
      rw [value_def, unpacked, unpackedUnits, Int.cast_zero, zero_div]
      exact .zero sign
  | finite sign m e pos =>
      have canonical := canonical_unpack unpacked
      rw [value_def, unpacked, units_finite sign pos canonical.exponent_ge]
      exact .finite sign pos canonical

theorem signed_shift (sign : Sign) (m : Nat) {e least : ℤ} (le : least ≤ e) :
    ((sign.apply (m <<< (e - least).toNat : Nat) : ℤ) : ℚ) * 2 ^ least =
      signed sign (m * 2 ^ e) := by
  obtain ⟨places, places_eq⟩ : ∃ places, places = (e - least).toNat := ⟨_, rfl⟩
  have e_eq : e = places + least := by omega
  have magnitude : (((m <<< places : ℕ) : ℤ) : ℚ) * 2 ^ least = m * 2 ^ e := by
    rw [e_eq, zpow_add₀ two_ne_zero, zpow_natCast, Nat.shiftLeft_eq]
    push_cast
    ring
  rw [← places_eq]
  cases sign with
  | positive => exact magnitude
  | negative =>
      change ((-((m <<< places : ℕ) : ℤ) : ℤ) : ℚ) * 2 ^ least = -(m * 2 ^ e)
      rw [Int.cast_neg, neg_mul, magnitude]

theorem nearest_add (a_finite : a.isFinite = true) (b_finite : b.isFinite = true) :
    Nearest (value a + value b) (a + b) := by
  obtain ⟨x, u, x_eq, u_eq, unpacks⟩ := exists_unpacks a_finite
  obtain ⟨y, w, y_eq, w_eq, unpacks'⟩ := exists_unpacks b_finite
  change Nearest _ (ofUnpacked (.add Format.binary64 a.toModel.unpack b.toModel.unpack))
  rw [x_eq, y_eq, u_eq, w_eq]
  cases unpacks with
  | zero sign =>
      rw [zero_add]
      cases unpacks' with
      | zero sign' => cases sign <;> cases sign' <;> exact nearest_zero _
      | finite sign' pos' canonical' => exact nearest_canonical sign' pos' canonical'
  | @finite sign m e pos canonical =>
      cases unpacks' with
      | zero sign' =>
          rw [add_zero]
          exact nearest_canonical sign pos canonical
      | @finite sign' m' e' pos' canonical' =>
          rw [← signed_shift sign m (min_le_left e e'),
            ← signed_shift sign' m' (min_le_right e e'), ← add_mul, ← Int.cast_add]
          exact nearest_normalize _ _

theorem nearest_sub (a_finite : a.isFinite = true) (b_finite : b.isFinite = true) :
    Nearest (value a - value b) (a - b) := by
  obtain ⟨x, u, x_eq, u_eq, unpacks⟩ := exists_unpacks a_finite
  obtain ⟨y, w, y_eq, w_eq, unpacks'⟩ := exists_unpacks b_finite
  change Nearest _ (ofUnpacked (.sub Format.binary64 a.toModel.unpack b.toModel.unpack))
  rw [x_eq, y_eq, u_eq, w_eq]
  cases unpacks with
  | zero sign =>
      rw [zero_sub]
      cases unpacks' with
      | zero sign' =>
          rw [neg_zero]
          cases sign <;> cases sign' <;> exact nearest_zero _
      | finite sign' pos' canonical' =>
          rw [← signed_neg]
          exact nearest_canonical (-sign') pos' canonical'
  | @finite sign m e pos canonical =>
      cases unpacks' with
      | zero sign' =>
          rw [sub_zero]
          exact nearest_canonical sign pos canonical
      | @finite sign' m' e' pos' canonical' =>
          rw [← signed_shift sign m (min_le_left e e'),
            ← signed_shift sign' m' (min_le_right e e'), ← sub_mul, ← Int.cast_sub]
          exact nearest_normalize _ _

theorem signed_mul_signed (sign sign' : Sign) (x y : ℚ) :
    signed sign x * signed sign' y = signed (sign * sign') (x * y) := by
  cases sign <;> cases sign'
  · exact neg_mul_neg x y
  · exact neg_mul x y
  · exact mul_neg x y
  · rfl

theorem signed_div_signed (sign sign' : Sign) (x y : ℚ) :
    signed sign x / signed sign' y = signed (sign / sign') (x / y) := by
  cases sign <;> cases sign'
  · exact neg_div_neg_eq x y
  · exact neg_div y x
  · exact div_neg x
  · rfl

theorem neg_spec (finite : v.isFinite = true) :
    (-v).isNaN = false ∧ value (-v) = -value v := by
  obtain ⟨x, u, x_eq, u_eq, unpacks⟩ := exists_unpacks finite
  change (ofUnpacked (.neg v.toModel.unpack)).isNaN = false ∧
    value (ofUnpacked (.neg v.toModel.unpack)) = _
  rw [x_eq, u_eq]
  cases unpacks with
  | zero sign =>
      rw [neg_zero]
      exact ofUnpacked_zero (-sign)
  | finite sign pos canonical =>
      rw [← signed_neg]
      exact ofUnpacked_canonical (-sign) pos canonical

theorem nearest_mul (a_finite : a.isFinite = true) (b_finite : b.isFinite = true) :
    Nearest (value a * value b) (a * b) := by
  obtain ⟨x, u, x_eq, u_eq, unpacks⟩ := exists_unpacks a_finite
  obtain ⟨y, w, y_eq, w_eq, unpacks'⟩ := exists_unpacks b_finite
  change Nearest _ (ofUnpacked (.mul Format.binary64 a.toModel.unpack b.toModel.unpack))
  rw [x_eq, y_eq, u_eq, w_eq]
  cases unpacks with
  | zero sign =>
      rw [zero_mul]
      cases unpacks' <;> exact nearest_zero _
  | @finite sign m e pos canonical =>
      cases unpacks' with
      | zero sign' =>
          rw [mul_zero]
          exact nearest_zero _
      | @finite sign' m' e' pos' canonical' =>
          have magnitude : (m * 2 ^ e * (m' * 2 ^ e') : ℚ) = (m * m' : ℕ) * 2 ^ (e + e') := by
            rw [zpow_add₀ two_ne_zero]
            push_cast
            ring
          -- Unless both exponents are least, one factor has all of its bits.
          have long : 52 ≤ (m * m').log2 ∨ e + e' ≤ -1074 := by
            have product_ne : m * m' ≠ 0 := (Nat.mul_pos pos pos').ne'
            rw [Nat.le_log2 product_ne]
            rcases canonical.leading with leading | least
            · exact .inl (Nat.le_trans leading (Nat.le_mul_of_pos_right m pos'))
            · rcases canonical'.leading with leading' | least'
              · exact .inl (Nat.le_trans leading' (Nat.le_mul_of_pos_left m' pos))
              · exact .inr (by omega)
          rw [signed_mul_signed, magnitude]
          exact nearest_roundWithAccuracy (sign * sign') _ _ .exact (.whole rfl) (by omega)

/-- The accuracy of a fraction describes the quotient. -/
theorem describes_quotient (num : Nat) {den : Nat} (pos : 0 < den) :
    Describes (.ofMantissaAndAccuracy (num / den) (accuracyOfFraction (num % den) den))
      (num / den : ℚ) := by
  have den_pos : (0 : ℚ) < den := by exact_mod_cast pos
  have split : (num : ℚ) = den * (num / den : ℕ) + (num % den : ℕ) := by
    exact_mod_cast (Nat.div_add_mod num den).symm
  have rest_lt : ((num % den : ℕ) : ℚ) < den := by exact_mod_cast Nat.mod_lt num pos
  have quotient_eq : (num / den : ℚ) = (num / den : ℕ) + (num % den : ℕ) / den := by
    rw [split]
    field_simp
  rw [quotient_eq, accuracyOfFraction]
  generalize num % den = rest at rest_lt
  generalize num / den = whole
  by_cases zero : rest = 0
  · rw [if_pos zero, zero, Nat.cast_zero, zero_div, add_zero]
    exact .whole rfl
  · rw [if_neg zero]
    have rest_pos : (0 : ℚ) < rest / den :=
      div_pos (by exact_mod_cast Nat.pos_of_ne_zero zero) den_pos
    have rest_lt_one : (rest / den : ℚ) < 1 := (div_lt_one den_pos).mpr rest_lt
    rcases lt_trichotomy (2 * rest) den with lt | half_eq | gt
    · have lt_half : (rest / den : ℚ) < 1 / 2 := by
        rw [div_lt_div_iff₀ den_pos two_pos]
        exact_mod_cast (by omega : rest * 2 < 1 * den)
      rw [compare_lt_iff_lt.mpr lt]
      exact .below_half (by linarith) (by linarith)
    · have eq_half : (rest / den : ℚ) = 1 / 2 := by
        rw [div_eq_div_iff den_pos.ne' two_ne_zero]
        exact_mod_cast (by omega : rest * 2 = 1 * den)
      rw [compare_eq_iff_eq.mpr half_eq]
      exact .half (by rw [eq_half])
    · have gt_half : (1 / 2 : ℚ) < rest / den := by
        rw [div_lt_div_iff₀ two_pos den_pos]
        exact_mod_cast (by omega : 1 * den < rest * 2)
      rw [compare_gt_iff_gt.mpr gt]
      exact .above_half (by linarith) (by linarith)

/-- A dividend that is moved far enough past its divisor has a quotient of full length. -/
theorem le_log2_quotient {m m' places : Nat} (pos : 0 < m) (pos' : 0 < m')
    (far : m'.log2 + 53 ≤ m.log2 + places) : 52 ≤ (m * 2 ^ places / m').log2 := by
  have dividend_ge : 2 ^ 52 * m' ≤ m * 2 ^ places := by
    calc
      2 ^ 52 * m' ≤ 2 ^ 52 * 2 ^ (m'.log2 + 1) := Nat.mul_le_mul_left _ Nat.lt_log2_self.le
      _ = 2 ^ (52 + (m'.log2 + 1)) := (Nat.pow_add 2 52 _).symm
      _ ≤ 2 ^ (m.log2 + places) := Nat.pow_le_pow_right Nat.two_pos (by omega)
      _ = 2 ^ m.log2 * 2 ^ places := Nat.pow_add 2 m.log2 places
      _ ≤ m * 2 ^ places := Nat.mul_le_mul_right _ (Nat.log2_self_le pos.ne')
  have quotient_ge := (Nat.le_div_iff_mul_le pos').mpr dividend_ge
  exact (Nat.le_log2 (by omega)).mpr quotient_ge

/-- A quotient of finite doubles is nearest to the quotient of their values, unless the divisor is
zero. -/
theorem nearest_div (a_finite : a.isFinite = true) (b_finite : b.isFinite = true)
    (nonzero : value b ≠ 0) : Nearest (value a / value b) (a / b) := by
  obtain ⟨x, u, x_eq, u_eq, unpacks⟩ := exists_unpacks a_finite
  obtain ⟨y, w, y_eq, w_eq, unpacks'⟩ := exists_unpacks b_finite
  change Nearest _ (ofUnpacked (.div Format.binary64 a.toModel.unpack b.toModel.unpack))
  rw [y_eq] at nonzero
  rw [x_eq, y_eq, u_eq, w_eq]
  cases unpacks' with
  | zero sign' => exact absurd rfl nonzero
  | @finite sign' m' e' pos' canonical' =>
      cases unpacks with
      | zero sign =>
          rw [zero_div]
          exact nearest_zero _
      | @finite sign m e pos canonical =>
          obtain ⟨bound, bound_eq⟩ : ∃ bound, bound =
              Format.binary64.targetExponent (totalExponent m e - totalExponent m' e') := ⟨_, rfl⟩
          obtain ⟨start, start_eq⟩ : ∃ start, start = min (e - e') bound := ⟨_, rfl⟩
          obtain ⟨places, places_eq⟩ : ∃ places, places = (e - e' - start).toNat := ⟨_, rfl⟩
          have bound_eq' : bound = max (m.log2 + 1 + e - (m'.log2 + 1 + e') - 53) (-1074) :=
            bound_eq
          have e_eq : e = places + start + e' := by omega
          have magnitude : (m * 2 ^ e / (m' * 2 ^ e') : ℚ) =
              (m * 2 ^ places : ℕ) / m' * 2 ^ start := by
            have unit_ne : (2 ^ e' : ℚ) ≠ 0 := zpow_ne_zero e' two_ne_zero
            rw [e_eq, zpow_add₀ two_ne_zero, zpow_add₀ two_ne_zero, zpow_natCast]
            push_cast
            field_simp
          -- The dividend was moved far enough for the quotient to have all of its bits.
          have long : 52 ≤ (m * 2 ^ places / m').log2 ∨ start ≤ -1074 := by
            rcases le_or_gt start (-1074) with least | normal
            · exact .inr least
            · exact .inl (le_log2_quotient pos pos' (by omega))
          rw [signed_div_signed, magnitude]
          change Nearest _ (ofUnpacked (roundWithAccuracy Format.binary64 (sign / sign') _ _ _))
          rw [← bound_eq, ← start_eq, Nat.shiftLeft_eq, ← places_eq]
          exact nearest_roundWithAccuracy (sign / sign') _ _ _ (describes_quotient _ pos')
            (by omega)

end Operations

section Monotone

variable {a b d v w : Float} {x y : ℚ}

theorem Nearest.value_eq (nearest : Nearest (value d) v) (number : d.isNaN = false) :
    value v = value d := by
  have le := nearest.le d number
  rw [sub_self, abs_zero] at le
  exact sub_eq_zero.mp (abs_nonpos_iff.mp le)

/-- Doubles nearest to numbers are in the order of the numbers. -/
theorem Nearest.value_le_value (nearest : Nearest x v) (nearest' : Nearest y w) (lt : x < y) :
    value v ≤ value w := by
  by_contra above
  rw [not_le] at above
  have le := nearest.le w nearest'.number
  have le' := nearest'.le v nearest.number
  -- Each of the two lies on the near side of their midpoint, but the numbers are the other way
  -- round.
  have x_ge : (value v + value w) / 2 ≤ x := by
    by_contra below
    rw [not_le] at below
    have nearer : |value w - x| < |value v - x| := by
      rw [abs_lt, abs_of_pos (by linarith : 0 < value v - x)]
      constructor <;> linarith
    exact absurd le (not_le.mpr nearer)
  have y_le : y ≤ (value v + value w) / 2 := by
    by_contra beyond
    rw [not_le] at beyond
    have nearer : |value v - y| < |value w - y| := by
      rw [abs_lt, abs_of_neg (by linarith : value w - y < 0)]
      constructor <;> linarith
    exact absurd le' (not_le.mpr nearer)
  linarith

theorem Nearest.value_le (nearest : Nearest x v) (number : d.isNaN = false) (le : x ≤ value d) :
    value v ≤ value d := by
  rcases lt_or_eq_of_le le with lt | rfl
  · exact nearest.value_le_value (nearest_of_value_eq number rfl) lt
  · exact (nearest.value_eq number).le

theorem Nearest.le_value (nearest : Nearest x v) (number : d.isNaN = false) (le : value d ≤ x) :
    value d ≤ value v := by
  rcases lt_or_eq_of_le le with lt | rfl
  · exact (nearest_of_value_eq number rfl).value_le_value nearest lt
  · exact (nearest.value_eq number).ge

theorem Nearest.congr (nearest : Nearest x v) (number : w.isNaN = false)
    (value_eq : value w = value v) : Nearest x w where
  number := number
  le d d_number := value_eq ▸ nearest.le d d_number

theorem Nearest.isFinite (nearest : Nearest x v) (a_finite : a.isFinite = true)
    (b_finite : b.isFinite = true) (ge : value a ≤ x) (le : x ≤ value b) : v.isFinite = true :=
  isFinite_of_between nearest.number a_finite b_finite
    (value_le_value_iff.mp (nearest.le_value (isNaN_of_finite a_finite) ge))
    (value_le_value_iff.mp (nearest.value_le (isNaN_of_finite b_finite) le))

theorem value_zero : value 0 = 0 := by
  have units_eq : units 0 = 0 := rfl
  rw [value, units_eq, Int.cast_zero, zero_div]

theorem value_one : value 1 = 1 := by
  have units_eq : units 1 = 2 ^ 1074 := by decide +kernel
  simpa using value_eq_zpow 1074 units_eq

/-- The finite doubles lie between the powers of two that stand for the infinities. -/
theorem isFinite_iff_value (number : v.isNaN = false) :
    v.isFinite = true ↔ -2 ^ (1024 : ℤ) < value v ∧ value v < 2 ^ (1024 : ℤ) := by
  have infinity_eq : (2 ^ (1024 : ℤ) : ℚ) = ((infinityUnits : ℤ) : ℚ) / 2 ^ 1074 := by
    rw [infinityUnits, infinityPlace, Int.cast_natCast, Nat.cast_pow, Nat.cast_ofNat,
      eq_div_iff (by positivity), ← zpow_natCast, ← zpow_natCast, ← zpow_add₀ two_ne_zero]
    rfl
  rw [isFinite_iff_units number, infinity_eq, ← neg_div, value,
    div_lt_div_iff_of_pos_right (by positivity), div_lt_div_iff_of_pos_right (by positivity),
    ← Int.cast_neg, Int.cast_lt, Int.cast_lt]

/-- No double lies between a power of two and the one with 53 digits before it. -/
theorem value_le_of_lt_two_pow (finite : v.isFinite = true) {k : ℤ} (k_ge : -1074 ≤ k)
    (lt : value v < 2 ^ (k + 53)) : value v ≤ (2 ^ 53 - 1 : ℕ) * 2 ^ k := by
  obtain ⟨x, u, x_eq, -, unpacks⟩ := exists_unpacks finite
  rw [x_eq] at lt ⊢
  cases unpacks with
  | zero => positivity
  | @finite sign m e pos canonical =>
      have magnitude_nonneg : (0 : ℚ) ≤ m * 2 ^ e := by positivity
      have bound_nonneg : (0 : ℚ) ≤ (2 ^ 53 - 1 : ℕ) * 2 ^ k := by positivity
      cases sign with
      | negative => exact (neg_nonpos.mpr magnitude_nonneg).trans bound_nonneg
      | positive =>
          have e_le : e ≤ k := by
            by_contra beyond
            have leading : 2 ^ 52 ≤ m := canonical.leading.resolve_right (by omega)
            have ge : (2 ^ (k + 53) : ℚ) ≤ m * 2 ^ e := by
              have split_eq : (2 ^ (k + 53) : ℚ) = (2 ^ 52 : ℕ) * 2 ^ (k + 1) := by
                rw [show k + 53 = (52 : ℕ) + (k + 1) by omega, zpow_add₀ two_ne_zero, zpow_natCast]
                norm_num
              rw [split_eq]
              exact mul_le_mul (Nat.cast_le.mpr leading)
                (zpow_le_zpow_right₀ one_le_two (by omega)) (by positivity) (Nat.cast_nonneg _)
            exact absurd lt (not_lt.mpr ge)
          exact mul_le_mul (Nat.cast_le.mpr (Nat.le_pred_of_lt canonical.mantissa_lt))
            (zpow_le_zpow_right₀ one_le_two e_le) (by positivity) (Nat.cast_nonneg _)

theorem Nearest.isFinite_of_toNat {n : UInt64} (nearest : Nearest n.toNat v) :
    v.isFinite = true := by
  have units_eq : units 18446744073709551616 = 2 ^ 64 * 2 ^ 1074 := by decide +kernel
  have value_eq : value 18446744073709551616 = 2 ^ 64 := by
    rw [value, units_eq, Int.cast_mul, Int.cast_pow, Int.cast_pow]
    exact mul_div_cancel_right₀ _ (by positivity)
  have le : (n.toNat : ℚ) ≤ value 18446744073709551616 := by
    rw [value_eq]
    exact_mod_cast n.toNat_lt.le
  exact nearest.isFinite (show (0 : Float).isFinite = true from rfl) (by decide +kernel)
    (value_zero ▸ Nat.cast_nonneg _) le

theorem nearest_toFloat (n : UInt64) : Nearest n.toNat n.toFloat ∧ n.toFloat.isFinite = true := by
  have nearest : Nearest n.toNat n.toFloat := by
    have normalized := nearest_normalize n.toNat 0
    rw [zpow_zero, mul_one, Int.cast_natCast] at normalized
    exact normalized
  exact ⟨nearest, nearest.isFinite_of_toNat⟩

theorem nearest_ofScientific {n : Nat} (large : 2 ^ 53 ≤ n) :
    Nearest n (Float.ofModel (Float.Model.ofScientific n 0)) := by
  have long : 52 ≤ (n <<< 53 * 10 ^ 0).log2 := by
    rw [Nat.le_log2 (by rw [Nat.shiftLeft_eq]; omega), Nat.shiftLeft_eq]
    omega
  have in_range : ¬(0 : ℤ) < -(2 ^ Format.binary64.exponentBits + n.log2) := by
    change ¬(0 : ℤ) < -(2 ^ 11 + n.log2)
    omega
  have converted : UnpackedFloat.ofScientific Format.binary64 n 0 =
      roundWithAccuracy Format.binary64 .positive (n <<< 53 * 10 ^ 0) (-53 + 0) .exact := by
    rw [UnpackedFloat.ofScientific, dif_neg (by omega : ¬n = 0), if_neg (by decide),
      if_neg in_range, if_pos (Int.le_refl 0)]
    rfl
  have value_eq : ((n <<< 53 * 10 ^ 0 : ℕ) : ℚ) * 2 ^ (-53 + 0 : ℤ) = n := by
    rw [Nat.shiftLeft_eq, pow_zero, mul_one, Nat.cast_mul, mul_assoc]
    norm_num
  have rounded := nearest_roundWithAccuracy .positive (n <<< 53 * 10 ^ 0) (-53 + 0) .exact
    (.whole rfl) (by omega)
  rw [value_eq] at rounded
  change Nearest n (ofUnpacked (UnpackedFloat.ofScientific Format.binary64 n 0))
  rw [converted]
  exact rounded

theorem nearest_ofNat (n : UInt64) :
    Nearest n.toNat (Float.ofNat n.toNat) ∧ (Float.ofNat n.toNat).isFinite = true := by
  suffices nearest : Nearest n.toNat (Float.ofNat n.toNat) from
    ⟨nearest, nearest.isFinite_of_toNat⟩
  change Nearest n.toNat (Float.ofScientific n.toNat false 0)
  rw [Float.ofScientific]
  split
  · obtain ⟨converted, finite⟩ := nearest_toFloat n
    have product := nearest_mul finite (show (1 : Float).isFinite = true from rfl)
    rw [value_one, mul_one] at product
    have power_eq : Float.exactlyRepresentablePowersOfTen[0] = 1 := by decide +kernel
    change Nearest n.toNat (n.toNat.toUInt64.toFloat * Float.exactlyRepresentablePowersOfTen[0])
    rw [power_eq, show n.toNat.toUInt64 = n from UInt64.ofNat_toNat]
    exact converted.congr product.number (product.value_eq converted.number)
  · exact nearest_ofScientific (by omega)

theorem scaled_eq_of_magnitude_eq {m m' : Nat} {e e' : ℤ} (e_ge : -1074 ≤ e) (e'_ge : -1074 ≤ e')
    (pos : 0 < m) (pos' : 0 < m') (magnitude_eq : (m * 2 ^ e : ℚ) = m' * 2 ^ e') :
    scaled m e = scaled m' e' := by
  have scaled_eq : (((scaled m e : ℕ) : ℤ) : ℚ) / 2 ^ 1074 = ((scaled m' e' : ℕ) : ℤ) / 2 ^ 1074 :=
    (units_finite .positive pos e_ge).trans
      (magnitude_eq.trans (units_finite .positive pos' e'_ge).symm)
  rw [div_left_inj' (by positivity)] at scaled_eq
  exact_mod_cast scaled_eq

theorem signed_inj {sign sign' : Sign} (x_pos : 0 < x) (y_pos : 0 < y)
    (same : signed sign x = signed sign' y) : sign = sign' ∧ x = y := by
  cases sign <;> cases sign' <;> simp only [signed] at same
  · exact ⟨rfl, neg_inj.mp same⟩
  · linarith
  · linarith
  · exact ⟨rfl, same⟩

theorem eq_of_value_eq (a_finite : a.isFinite = true) (b_finite : b.isFinite = true)
    (value_eq : value a = value b) (nonzero : value a ≠ 0) : a = b := by
  obtain ⟨x, u, x_eq, u_eq, unpacks⟩ := exists_unpacks a_finite
  obtain ⟨y, w, y_eq, w_eq, unpacks'⟩ := exists_unpacks b_finite
  rw [x_eq] at nonzero
  rw [x_eq, y_eq] at value_eq
  suffices same : u = w by rw [← ofModel_pack_unpack a, ← ofModel_pack_unpack b, u_eq, w_eq, same]
  cases unpacks with
  | zero => exact absurd rfl nonzero
  | @finite sign m e pos canonical =>
      generalize exact_eq : signed sign (m * 2 ^ e) = exact at value_eq nonzero
      cases unpacks' with
      | zero => exact absurd value_eq nonzero
      | @finite sign' m' e' pos' canonical' =>
          rw [value_eq] at exact_eq
          obtain ⟨rfl, magnitude_eq⟩ := signed_inj (by positivity) (by positivity) exact_eq
          have scaled_eq := scaled_eq_of_magnitude_eq canonical.exponent_ge canonical'.exponent_ge
            pos pos' magnitude_eq
          have compared := canonical.compare_eq canonical'
          rw [compare_eq_iff_eq.mpr scaled_eq, Ordering.then_eq_eq, compare_eq_iff_eq,
            compare_eq_iff_eq] at compared
          obtain ⟨rfl, rfl⟩ := compared
          rfl

/-- A positive addend makes no number smaller. -/
theorem units_le_units_add (a_finite : a.isFinite = true) (b_finite : b.isFinite = true)
    (b_pos : 0 < units b) : (a + b).isNaN = false ∧ units a ≤ units (a + b) := by
  have nearest := nearest_add a_finite b_finite
  have value_pos : 0 < value b := div_pos (Int.cast_pos.mpr b_pos) (by positivity)
  exact ⟨nearest.number, value_le_value_iff.mp
    (nearest.le_value (isNaN_of_finite a_finite) (by linarith))⟩

end Monotone

end Double
end FormulaFit
