import FormulaFit.Proofs.Scalar.Words
import Mathlib.Tactic
import Mathlib.Order.Compare

/-!
# Order of doubles

Every double but the undefined one stands for a whole number of least positive doubles, infinity for
more of them than any finite double, and doubles compare as these numbers do.  A canonical number is
packed into a double without loss, and one with too great an exponent into infinity.
-/

namespace FormulaFit
namespace Double

section Units

open Float.Model Float.Model.UnpackedFloat

/-- How many least positive doubles a significand and an exponent make up. -/
def scaled (mantissa : Nat) (exponent : Int) : Nat := mantissa * 2 ^ (exponent + 1074).toNat

/-- Power of two that infinity stands for. -/
def infinityPlace : Nat := 2098

/-- How many least positive doubles infinity stands for. -/
def infinityUnits : Nat := 2 ^ infinityPlace

/-- How many least positive doubles an unpacked double stands for. -/
def unpackedUnits : UnpackedFloat → Int
  | .finite .positive mantissa exponent _ => scaled mantissa exponent
  | .finite .negative mantissa exponent _ => -scaled mantissa exponent
  | .infinity .positive => infinityUnits
  | .infinity .negative => -infinityUnits
  | .zero _ | .notANumber => 0

/-- How many least positive doubles a double stands for. -/
def units (v : Float) : Int := unpackedUnits v.toModel.unpack

variable {m m' : Nat} {e e' : Int}

theorem scaled_lt_scaled_iff : scaled m e < scaled m' e ↔ m < m' :=
  Nat.mul_lt_mul_right (Nat.two_pow_pos _)

theorem scaled_pos (e : Int) (pos : 0 < m) : 0 < scaled m e := Nat.mul_pos pos (Nat.two_pow_pos _)

theorem scaled_le_of_exponent_lt (mantissa_le : m ≤ 2 ^ 53) (exponent_ge : -1074 ≤ e)
    (leading : 2 ^ 52 ≤ m') (lt : e < e') : scaled m e ≤ scaled m' e' := by
  have places : (e + 1074).toNat + 1 ≤ (e' + 1074).toNat := by omega
  calc
    scaled m e ≤ 2 ^ 53 * 2 ^ (e + 1074).toNat := Nat.mul_le_mul_right _ mantissa_le
    _ = 2 ^ 52 * 2 ^ ((e + 1074).toNat + 1) := by rw [Nat.pow_succ]; omega
    _ ≤ 2 ^ 52 * 2 ^ (e' + 1074).toNat :=
      Nat.mul_le_mul_left _ (Nat.pow_le_pow_right Nat.two_pos places)
    _ ≤ scaled m' e' := Nat.mul_le_mul_right _ leading

theorem Canonical.scaled_lt_of_exponent_lt (canonical : Canonical m e) (leading : 2 ^ 52 ≤ m')
    (lt : e < e') : scaled m e < scaled m' e' :=
  Nat.lt_of_lt_of_le (scaled_lt_scaled_iff.mpr canonical.mantissa_lt)
    (scaled_le_of_exponent_lt (Nat.le_refl _) canonical.exponent_ge leading lt)

theorem Canonical.scaled_lt_infinityUnits (canonical : Canonical m e) :
    scaled m e < infinityUnits := by
  have exponent_lt := canonical.exponent_lt
  calc
    scaled m e < 2 ^ 53 * 2 ^ (e + 1074).toNat :=
      Nat.mul_lt_mul_of_pos_right canonical.mantissa_lt (Nat.two_pow_pos _)
    _ = 2 ^ (53 + (e + 1074).toNat) := (Nat.pow_add 2 53 _).symm
    _ ≤ infinityUnits := by
      rw [infinityUnits]
      exact Nat.pow_le_pow_right Nat.two_pos (by rw [infinityPlace]; omega)

/-- Canonical numbers are compared by their exponents first. -/
theorem Canonical.compare_eq (canonical : Canonical m e) (canonical' : Canonical m' e') :
    (compare e e').then (compare m m') = compare (scaled m e) (scaled m' e') := by
  have exponent_ge := canonical.exponent_ge
  have exponent_ge' := canonical'.exponent_ge
  rcases lt_trichotomy e e' with lt | rfl | lt
  · have leading' := canonical'.leading.resolve_right (by omega)
    rw [compare_lt_iff_lt.mpr lt,
      compare_lt_iff_lt.mpr (canonical.scaled_lt_of_exponent_lt leading' lt)]
    rfl
  · rw [compare_eq_iff_eq.mpr rfl, Ordering.then]
    rcases lt_trichotomy m m' with lt | rfl | lt
    · rw [compare_lt_iff_lt.mpr lt, compare_lt_iff_lt.mpr (scaled_lt_scaled_iff.mpr lt)]
    · rw [compare_eq_iff_eq.mpr rfl, compare_eq_iff_eq.mpr rfl]
    · rw [compare_gt_iff_gt.mpr lt, compare_gt_iff_gt.mpr (scaled_lt_scaled_iff.mpr lt)]
  · have leading := canonical.leading.resolve_right (by omega)
    rw [compare_gt_iff_gt.mpr lt,
      compare_gt_iff_gt.mpr (canonical'.scaled_lt_of_exponent_lt leading lt)]
    rfl

theorem compare_natCast (m n : Nat) : compare (m : Int) (n : Int) = compare m n := by
  rcases lt_trichotomy m n with lt | rfl | lt
  · rw [compare_lt_iff_lt.mpr lt, compare_lt_iff_lt.mpr (Int.ofNat_lt.mpr lt)]
  · rw [compare_eq_iff_eq.mpr rfl, compare_eq_iff_eq.mpr rfl]
  · rw [compare_gt_iff_gt.mpr lt, compare_gt_iff_gt.mpr (Int.ofNat_lt.mpr lt)]

theorem compare_neg (m n : Int) : compare (-m) (-n) = (compare m n).swap := by
  rcases lt_trichotomy m n with lt | rfl | lt
  · rw [compare_lt_iff_lt.mpr lt, compare_gt_iff_gt.mpr (Int.neg_lt_neg lt)]
    rfl
  · rw [compare_eq_iff_eq.mpr rfl, compare_eq_iff_eq.mpr rfl]
    rfl
  · rw [compare_gt_iff_gt.mpr lt, compare_lt_iff_lt.mpr (Int.neg_lt_neg lt)]
    rfl

/-- An unpacked double is a number: canonical, zero or infinite. -/
inductive Numeric : UnpackedFloat → Prop
  | zero (sign : Sign) : Numeric (.zero sign)
  | infinity (sign : Sign) : Numeric (.infinity sign)
  | finite (sign : Sign) {m : Nat} {e : Int} (pos : 0 < m) (canonical : Canonical m e) :
      Numeric (.finite sign m e pos)

theorem numeric_unpack {v : Float} (number : v.isNaN = false) : Numeric v.toModel.unpack := by
  change v.toModel.unpack.isNaN = false at number
  cases unpacked : v.toModel.unpack with
  | notANumber =>
      rw [unpacked] at number
      cases number
  | zero sign => exact .zero sign
  | infinity sign => exact .infinity sign
  | finite sign m e pos => exact .finite sign pos (canonical_unpack unpacked)

theorem Canonical.units_bounds (canonical : Canonical m e) (sign : Sign) (pos : 0 < m) :
    -(infinityUnits : Int) < unpackedUnits (.finite sign m e pos) ∧
      unpackedUnits (.finite sign m e pos) < infinityUnits := by
  have lt := canonical.scaled_lt_infinityUnits
  cases sign <;> simp only [unpackedUnits] <;> omega

theorem some_lt_eq {m n : Int} (lt : m < n) : some Ordering.lt = some (compare m n) :=
  congrArg some (compare_lt_iff_lt.mpr lt).symm

theorem some_gt_eq {m n : Int} (lt : n < m) : some Ordering.gt = some (compare m n) :=
  congrArg some (compare_gt_iff_gt.mpr lt).symm

section Comparison

variable {u : UnpackedFloat} (numeric : Numeric u)

include numeric

theorem Numeric.zero_compare (sign : Sign) : (UnpackedFloat.zero sign).compare u =
    some (compare (unpackedUnits (.zero sign)) (unpackedUnits u)) := by
  have infinite_pos : 0 < infinityUnits := Nat.two_pow_pos _
  cases numeric with
  | zero => rfl
  | infinity sign' =>
      cases sign' with
      | negative => exact some_gt_eq (by simp only [unpackedUnits]; omega)
      | positive => exact some_lt_eq (by simp only [unpackedUnits]; omega)
  | @finite sign' m' e' pos' =>
      have scaled_pos' := scaled_pos e' pos'
      cases sign' with
      | negative => exact some_gt_eq (by simp only [unpackedUnits]; omega)
      | positive => exact some_lt_eq (by simp only [unpackedUnits]; omega)

theorem Numeric.infinity_compare (sign : Sign) : (UnpackedFloat.infinity sign).compare u =
    some (compare (unpackedUnits (.infinity sign)) (unpackedUnits u)) := by
  have infinite_pos : 0 < infinityUnits := Nat.two_pow_pos _
  cases numeric with
  | zero =>
      cases sign with
      | negative => exact some_lt_eq (by simp only [unpackedUnits]; omega)
      | positive => exact some_gt_eq (by simp only [unpackedUnits]; omega)
  | infinity sign' =>
      cases sign <;> cases sign'
      · exact congrArg some (compare_eq_iff_eq.mpr rfl).symm
      · exact some_lt_eq (by simp only [unpackedUnits]; omega)
      · exact some_gt_eq (by simp only [unpackedUnits]; omega)
      · exact congrArg some (compare_eq_iff_eq.mpr rfl).symm
  | finite sign' pos' canonical' =>
      obtain ⟨low, high⟩ := canonical'.units_bounds sign' pos'
      cases sign with
      | negative => exact some_lt_eq low
      | positive => exact some_gt_eq high

theorem Numeric.finite_compare (canonical : Canonical m e) (sign : Sign) (pos : 0 < m) :
    (UnpackedFloat.finite sign m e pos).compare u =
      some (compare (unpackedUnits (.finite sign m e pos)) (unpackedUnits u)) := by
  have scaled_pos := scaled_pos e pos
  cases numeric with
  | zero =>
      cases sign with
      | negative => exact some_lt_eq (by simp only [unpackedUnits]; omega)
      | positive => exact some_gt_eq (by simp only [unpackedUnits]; omega)
  | infinity sign' =>
      obtain ⟨low, high⟩ := canonical.units_bounds sign pos
      cases sign' <;> cases sign
      · exact some_gt_eq low
      · exact some_gt_eq low
      · exact some_lt_eq high
      · exact some_lt_eq high
  | @finite sign' m' e' pos' canonical' =>
      have scaled_pos' := Double.scaled_pos e' pos'
      -- Of two negative numbers the one with more units is the lesser.
      cases sign <;> cases sign'
      · exact congrArg some (by
          rw [canonical.compare_eq canonical', ← compare_natCast, ← compare_neg]
          rfl)
      · exact some_lt_eq (by simp only [unpackedUnits]; omega)
      · exact some_gt_eq (by simp only [unpackedUnits]; omega)
      · exact congrArg some (by
          rw [canonical.compare_eq canonical', ← compare_natCast]
          rfl)

end Comparison

/-- Numbers compare as what they stand for. -/
theorem Numeric.compare_eq {u w : UnpackedFloat} (numeric : Numeric u) (numeric' : Numeric w) :
    u.compare w = some (compare (unpackedUnits u) (unpackedUnits w)) := by
  cases numeric with
  | zero sign => exact numeric'.zero_compare sign
  | infinity sign => exact numeric'.infinity_compare sign
  | finite sign pos canonical => exact numeric'.finite_compare canonical sign pos

variable {a b : Float}

theorem lt_iff (a_number : a.isNaN = false) (b_number : b.isNaN = false) :
    a < b ↔ units a < units b := by
  have compared := (numeric_unpack a_number).compare_eq (numeric_unpack b_number)
  have unfolded : a < b ↔ (a.toModel.unpack.compare b.toModel.unpack == some .lt) = true :=
    ⟨of_decide_eq_true, decide_eq_true⟩
  rw [unfolded, compared, beq_iff_eq, Option.some_inj, compare_lt_iff_lt]
  rfl

theorem le_iff (a_number : a.isNaN = false) (b_number : b.isNaN = false) :
    a ≤ b ↔ units a ≤ units b := by
  have compared := (numeric_unpack a_number).compare_eq (numeric_unpack b_number)
  have unfolded : a ≤ b ↔ (a.toModel.unpack.compare b.toModel.unpack).any Ordering.isLE = true :=
    ⟨of_decide_eq_true, decide_eq_true⟩
  rw [unfolded, compared, Option.any_some, ← compare_le_iff_le, Ordering.isLE_iff_ne_gt]
  rfl

theorem isNaN_of_le (le : a ≤ b) : a.isNaN = false ∧ b.isNaN = false := by
  have compared : (a.toModel.unpack.compare b.toModel.unpack).any Ordering.isLE = true :=
    of_decide_eq_true le
  change a.toModel.unpack.isNaN = false ∧ b.toModel.unpack.isNaN = false
  generalize a.toModel.unpack = u at compared
  generalize b.toModel.unpack = w at compared
  cases u with
  | notANumber => exact Bool.noConfusion compared
  | infinity sign =>
      cases w with
      | notANumber => cases sign <;> exact Bool.noConfusion compared
      | _ => exact ⟨rfl, rfl⟩
  | _ =>
      cases w with
      | notANumber => exact Bool.noConfusion compared
      | _ => exact ⟨rfl, rfl⟩

theorem beq_iff (a_number : a.isNaN = false) (b_number : b.isNaN = false) :
    (a == b) = true ↔ units a = units b := by
  have compared := (numeric_unpack a_number).compare_eq (numeric_unpack b_number)
  change (a.toModel.unpack.compare b.toModel.unpack == some .eq) = true ↔ _
  rw [compared, beq_iff_eq, Option.some_inj, compare_eq_iff_eq]
  rfl

/-- Among the numbers the finite ones lie between the infinities. -/
theorem isFinite_iff_units (a_number : a.isNaN = false) :
    a.isFinite = true ↔ -(infinityUnits : Int) < units a ∧ units a < infinityUnits := by
  have numeric := numeric_unpack a_number
  have infinite_pos : 0 < infinityUnits := Nat.two_pow_pos _
  change a.toModel.unpack.isFinite = true ↔
    -(infinityUnits : Int) < unpackedUnits a.toModel.unpack ∧
      unpackedUnits a.toModel.unpack < infinityUnits
  generalize a.toModel.unpack = u at numeric
  cases numeric with
  | zero => exact ⟨fun _ => by simp only [unpackedUnits]; omega, fun _ => rfl⟩
  | infinity sign =>
      refine ⟨fun finite => Bool.noConfusion finite, fun bounds => ?_⟩
      cases sign <;> simp only [unpackedUnits] at bounds <;> omega
  | finite sign pos canonical => exact ⟨fun _ => canonical.units_bounds sign pos, fun _ => rfl⟩

theorem isFinite_of_between {v : Float} (number : v.isNaN = false) (a_finite : a.isFinite = true)
    (b_finite : b.isFinite = true) (ge : units a ≤ units v) (le : units v ≤ units b) :
    v.isFinite = true := by
  have above := ((isFinite_iff_units (isNaN_of_finite a_finite)).mp a_finite).1
  have below := ((isFinite_iff_units (isNaN_of_finite b_finite)).mp b_finite).2
  exact (isFinite_iff_units number).mpr ⟨by omega, by omega⟩

theorem le_of_not_lt (a_finite : a.isFinite = true) (b_finite : b.isFinite = true)
    (not_lt : ¬b < a) : a ≤ b := by
  have a_number := isNaN_of_finite a_finite
  have b_number := isNaN_of_finite b_finite
  rw [lt_iff b_number a_number, Int.not_lt] at not_lt
  exact (le_iff a_number b_number).mpr not_lt

theorem le_refl_of_finite (finite : a.isFinite = true) : a ≤ a :=
  (le_iff (isNaN_of_finite finite) (isNaN_of_finite finite)).mpr (Int.le_refl _)

end Units

section Packing

open Float.Model Float.Model.UnpackedFloat

variable {m : Nat} {e : Int}

theorem unpackSign_packComponents (sign : Sign) (exponent : BitVec 11) (mantissa : BitVec 52) :
    Sign.ofBitVec (unpackSign (packComponents Format.binary64 sign exponent mantissa)) = sign := by
  have sign_eq : unpackSign (packComponents Format.binary64 sign exponent mantissa) =
      sign.toBitVec := by
    simp only [unpackSign, packComponents, BitVec.extractLsb]
    ext i i_lt
    grind
  rw [sign_eq]
  cases sign <;> rfl

theorem unpack_pack (sign : Sign) (pos : 0 < m) (canonical : Canonical m e) :
    UnpackedFloat.unpack Format.binary64 (UnpackedFloat.pack Format.binary64
      (.finite sign m e pos)) = .finite sign m e pos := by
  have mantissa_lt := canonical.mantissa_lt
  have exponent_lt := canonical.exponent_lt
  have exponent_ge := canonical.exponent_ge
  have bias_eq : ((Format.binary64.exponentBias : Nat) : Int) +
      (Format.binary64.mantissaBitsWithoutImplicit : Nat) = 1075 := rfl
  by_cases normal : 2 ^ 52 ≤ m
  · have field_eq : (BitVec.ofNat 11 (e + 1075).toNat).toNat = (e + 1075).toNat := by
      rw [BitVec.toNat_ofNat, Nat.mod_eq_of_lt (by omega)]
    have bounded : BitVec.ofNat 11 (e + 1075).toNat ≠ -1#11 := fun same => by
      have same := congrArg BitVec.toNat same
      rw [field_eq] at same
      change _ = 2047 at same
      omega
    have positive : BitVec.ofNat 11 (e + 1075).toNat ≠ 0#11 := fun same => by
      have same := congrArg BitVec.toNat same
      rw [field_eq] at same
      change _ = 0 at same
      omega
    have fraction_eq : (BitVec.ofNat 52 m).toNat = m - 2 ^ 52 := by
      rw [BitVec.toNat_ofNat]
      omega
    rw [pack_normal sign pos normal mantissa_lt exponent_lt, UnpackedFloat.unpack]
    simp only [unpackExponent_packComponents, unpackMantissa_packComponents,
      unpackSign_packComponents, bounded, positive, if_false, bias_eq, field_eq]
    rw [UnpackedFloat.finite.injEq, toNat_leading_append, fraction_eq]
    exact ⟨rfl, by omega, by omega⟩
  · have least : e = -1074 := canonical.leading.resolve_left normal
    subst least
    have fraction_eq : (BitVec.ofNat 52 m).toNat = m := by
      rw [BitVec.toNat_ofNat]
      omega
    have nonzero : BitVec.ofNat 52 m ≠ 0#52 := fun same => by
      have same := congrArg BitVec.toNat same
      rw [fraction_eq] at same
      exact absurd same (Nat.ne_of_gt pos)
    rw [pack_subnormal sign pos (Nat.lt_of_not_le normal), UnpackedFloat.unpack]
    simp only [unpackExponent_packComponents, unpackMantissa_packComponents,
      unpackSign_packComponents, nonzero]
    simp only [fraction_eq]
    rfl

theorem unpack_pack_zero (sign : Sign) : UnpackedFloat.unpack Format.binary64
    (UnpackedFloat.pack Format.binary64 (.zero sign)) = .zero sign := by
  rw [UnpackedFloat.pack, packedZero, UnpackedFloat.unpack]
  simp only [unpackExponent_packComponents, unpackMantissa_packComponents,
    unpackSign_packComponents]
  rfl

/-- A number beyond the greatest exponent is packed as infinity. -/
theorem unpack_pack_of_overflow (sign : Sign) (pos : 0 < m) (beyond : 972 ≤ e) :
    UnpackedFloat.unpack Format.binary64 (UnpackedFloat.pack Format.binary64
      (.finite sign m e pos)) = .infinity sign := by
  have biased_eq : e + Format.binary64.exponentBias +
      Format.binary64.mantissaBitsWithoutImplicit = e + 1075 := by
    change e + 1023 + 52 = e + 1075
    omega
  have overflow : 2 ^ Format.binary64.exponentBits ≤ (e + 1075).toNat + 1 := by
    change 2 ^ 11 ≤ _
    omega
  rw [UnpackedFloat.pack, biased_eq]
  simp only [overflow, if_true]
  rw [packedInfinity, UnpackedFloat.unpack]
  simp only [unpackExponent_packComponents, unpackMantissa_packComponents,
    unpackSign_packComponents, if_true]
  rfl

end Packing

end Double
end FormulaFit
