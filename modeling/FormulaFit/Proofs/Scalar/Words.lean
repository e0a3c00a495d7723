import FormulaFit.Double
import FormulaFit.Operator
import Mathlib

/-!
# Doubles and their words

Every double is packed from what its word unpacks to.  So an operation that gives back the unpacked
form of an operand gives back the operand, as adding zero to a number and multiplying a number by
one do.  The first bit of the word is the sign, and the others tell whether the double is finite.
-/

namespace FormulaFit
namespace Double

section Packing

open Float.Model Float.Model.UnpackedFloat

theorem toBitVec_ofBitVec (b : BitVec 1) : (Sign.ofBitVec b).toBitVec = b := by
  rcases BitVec.eq_zero_or_eq_one b with rfl | rfl <;> rfl

variable {w : BitVec Format.binary64.numBits}

theorem packComponents_unpack {e : BitVec 11} {m : BitVec 52} (exponent : unpackExponent w = e)
    (mantissa : unpackMantissa w = m) :
    packComponents Format.binary64 (Sign.ofBitVec (unpackSign w)) e m = w := by
  rw [← exponent, ← mantissa, packComponents, toBitVec_ofBitVec]
  simp only [unpackSign, unpackExponent, unpackMantissa, BitVec.extractLsb]
  ext i i_lt
  grind

theorem toNat_leading_append (m : BitVec 52) : (1#1 ++ m).toNat = 2 ^ 52 + m.toNat := by
  rw [BitVec.toNat_append, ← Nat.shiftLeft_add_eq_or_of_lt m.isLt]
  rfl

theorem log2_of_normal {mantissa : Nat} (le : 2 ^ 52 ≤ mantissa) (lt : mantissa < 2 ^ 53) :
    mantissa.log2 = 52 :=
  (Nat.log2_eq_iff (by omega)).mpr ⟨le, lt⟩

theorem pack_normal (sign : Sign) {mantissa : Nat} {exponent : Int} (mantissa_pos : 0 < mantissa)
    (le : 2 ^ 52 ≤ mantissa) (lt : mantissa < 2 ^ 53) (exponent_lt : exponent < 972) :
    UnpackedFloat.pack Format.binary64 (.finite sign mantissa exponent mantissa_pos) =
      packComponents Format.binary64 sign (BitVec.ofNat _ (exponent + 1075).toNat)
        (BitVec.ofNat _ mantissa) := by
  have biased_eq : exponent + Format.binary64.exponentBias +
      Format.binary64.mantissaBitsWithoutImplicit = exponent + 1075 := by
    change exponent + 1023 + 52 = exponent + 1075
    omega
  have bounded : ¬2 ^ Format.binary64.exponentBits ≤ (exponent + 1075).toNat + 1 := by
    change ¬2 ^ 11 ≤ _
    omega
  rw [UnpackedFloat.pack, biased_eq]
  simp only [bounded, if_false, log2_of_normal le lt]
  rfl

theorem pack_subnormal (sign : Sign) {mantissa : Nat} (mantissa_pos : 0 < mantissa)
    (lt : mantissa < 2 ^ 52) :
    UnpackedFloat.pack Format.binary64 (.finite sign mantissa (-1074) mantissa_pos) =
      packComponents Format.binary64 sign 0 (BitVec.ofNat _ mantissa) := by
  have log2_lt : mantissa.log2 < 52 := (Nat.log2_lt (Nat.ne_of_gt mantissa_pos)).mpr lt
  have short : ¬mantissa.log2 + 1 = Format.binary64.mantissaBits := by
    change ¬mantissa.log2 + 1 = 53
    omega
  have biased_eq : ((-1074 : Int) + Format.binary64.exponentBias +
      Format.binary64.mantissaBitsWithoutImplicit).toNat = 1 := rfl
  rw [UnpackedFloat.pack]
  simp only [biased_eq, short, if_false]
  rfl

/-- Packing gives the word back that was unpacked. -/
theorem pack_unpack (valid : Format.binary64.Valid w) :
    UnpackedFloat.pack Format.binary64 (UnpackedFloat.unpack Format.binary64 w) = w := by
  have field_lt : (unpackExponent w).toNat < 2 ^ 11 := (unpackExponent w).isLt
  have fraction_lt : (unpackMantissa w).toNat < 2 ^ 52 := (unpackMantissa w).isLt
  have fraction_eq : BitVec.ofNat 52 (unpackMantissa w).toNat = unpackMantissa w := by simp
  rw [UnpackedFloat.unpack]
  split
  · rename_i greatest
    split
    · rename_i empty
      exact packComponents_unpack greatest empty
    · rename_i payload
      exact (valid.eq_packedNaN greatest payload).symm
  · rename_i bounded
    split
    · rename_i least
      split
      · rename_i empty
        exact packComponents_unpack least empty
      · have exponent_eq : ((unpackExponent w).toNat : Int) - (Format.binary64.exponentBias +
            Format.binary64.mantissaBitsWithoutImplicit) + 1 = -1074 := by
          rw [least]
          rfl
        simp only [exponent_eq]
        rw [pack_subnormal _ _ fraction_lt, fraction_eq]
        exact packComponents_unpack least rfl
    · have bounded_field : (unpackExponent w).toNat ≠ 2047 := fun same =>
        bounded (BitVec.eq_of_toNat_eq same)
      have exponent_eq : ((unpackExponent w).toNat : Int) - (Format.binary64.exponentBias +
          Format.binary64.mantissaBitsWithoutImplicit) = (unpackExponent w).toNat - 1075 := rfl
      have leading := toNat_leading_append (unpackMantissa w)
      have mantissa_eq : BitVec.ofNat 52 (1#1 ++ unpackMantissa w).toNat = unpackMantissa w := by
        rw [leading]
        exact BitVec.eq_of_toNat_eq (by simpa using Nat.mod_eq_of_lt fraction_lt)
      simp only [exponent_eq]
      rw [pack_normal _ _ (by omega) (by omega) (by omega), mantissa_eq]
      refine packComponents_unpack (BitVec.eq_of_toNat_eq ?_) rfl
      rw [BitVec.toNat_ofNat, Nat.mod_eq_of_lt (by omega)]
      omega

/-- Significand and exponent of a double: the first one has its leading bit, or the second one is
the least. -/
structure Canonical (mantissa : Nat) (exponent : Int) : Prop where
  mantissa_lt : mantissa < 2 ^ 53
  exponent_ge : -1074 ≤ exponent
  exponent_lt : exponent < 972
  leading : 2 ^ 52 ≤ mantissa ∨ exponent = -1074

theorem canonical_unpack {sign : Sign} {mantissa : Nat} {exponent : Int}
    {mantissa_pos : 0 < mantissa} (unpacked : UnpackedFloat.unpack Format.binary64 w =
      .finite sign mantissa exponent mantissa_pos) : Canonical mantissa exponent := by
  have field_lt : (unpackExponent w).toNat < 2 ^ 11 := (unpackExponent w).isLt
  have fraction_lt : (unpackMantissa w).toNat < 2 ^ 52 := (unpackMantissa w).isLt
  rw [UnpackedFloat.unpack] at unpacked
  split at unpacked
  · split at unpacked <;> cases unpacked
  · rename_i bounded
    split at unpacked
    · rename_i least
      split at unpacked
      · cases unpacked
      · obtain ⟨-, rfl, exponent_eq⟩ := UnpackedFloat.finite.inj unpacked
        have least_eq : exponent = -1074 := by
          rw [← exponent_eq, least]
          rfl
        exact ⟨by omega, by omega, by omega, .inr least_eq⟩
    · rename_i positive
      have bounded_field : (unpackExponent w).toNat ≠ 2047 := fun same =>
        bounded (BitVec.eq_of_toNat_eq same)
      have positive_field : (unpackExponent w).toNat ≠ 0 := fun same =>
        positive (BitVec.eq_of_toNat_eq same)
      obtain ⟨-, rfl, exponent_eq⟩ := UnpackedFloat.finite.inj unpacked
      have exponent_eq : ((unpackExponent w).toNat : Int) - 1075 = exponent := exponent_eq
      have leading := toNat_leading_append (unpackMantissa w)
      exact ⟨by omega, by omega, by omega, .inl (by omega)⟩

theorem repeat_shiftRightOne (mantissa places : Nat) :
    places.repeat ExtendedMantissa.shiftRightOne ⟨2 ^ places * mantissa, false, false⟩ =
      ⟨mantissa, false, false⟩ := by
  induction places generalizing mantissa with
  | zero => simp [Nat.repeat]
  | succ places ih =>
      rw [Nat.repeat, Nat.pow_succ, Nat.mul_assoc, ih]
      simp [ExtendedMantissa.shiftRightOne]

theorem targetExponent_of_canonical {mantissa : Nat} {exponent : Int} (mantissa_pos : 0 < mantissa)
    (canonical : Canonical mantissa exponent) :
    Format.binary64.targetExponent (mantissa.log2 + 1 + exponent) = exponent := by
  have log2_lt : mantissa.log2 < 53 :=
    (Nat.log2_lt (Nat.ne_of_gt mantissa_pos)).mpr canonical.mantissa_lt
  have exponent_ge := canonical.exponent_ge
  change max ((mantissa.log2 + 1 + exponent) - 53) (-1074 : Int) = exponent
  rcases canonical.leading with le | least
  · rw [log2_of_normal le canonical.mantissa_lt]
    omega
  · omega

theorem log2_two_pow_mul (places : Nat) {mantissa : Nat} (mantissa_pos : 0 < mantissa) :
    (2 ^ places * mantissa).log2 = places + mantissa.log2 := by
  have nonzero := Nat.ne_of_gt mantissa_pos
  have shifted := Nat.ne_of_gt (Nat.mul_pos (Nat.two_pow_pos places) mantissa_pos)
  refine (Nat.log2_eq_iff shifted).mpr ⟨?_, ?_⟩
  · rw [Nat.pow_add]
    exact Nat.mul_le_mul_left _ (Nat.log2_self_le nonzero)
  · rw [Nat.add_assoc, Nat.pow_add]
    exact Nat.mul_lt_mul_of_pos_left Nat.lt_log2_self (Nat.two_pow_pos places)

/-- Shifting to the target exponent gives a canonical number back, however many places were
appended to it. -/
theorem shiftToTargetExponent_canonical {mantissa : Nat} {exponent : Int}
    (mantissa_pos : 0 < mantissa) (canonical : Canonical mantissa exponent) (places : Nat) :
    shiftToTargetExponent Format.binary64 (2 ^ places * mantissa) (exponent - places) .exact =
      (⟨mantissa, false, false⟩, exponent) := by
  have total_eq : totalExponent (2 ^ places * mantissa) (exponent - places) =
      mantissa.log2 + 1 + exponent := by
    rw [totalExponent, log2_two_pow_mul places mantissa_pos]
    omega
  have amount_eq : (exponent - (exponent - places)).toNat = places := by omega
  have exponent_eq : exponent - places + places = exponent := by omega
  rw [shiftToTargetExponent, total_eq, targetExponent_of_canonical mantissa_pos canonical,
    shiftToExponent, amount_eq, exponent_eq]
  exact congrArg (·, exponent) (repeat_shiftRightOne mantissa places)

/-- Rounding gives a canonical number back. -/
theorem roundWithAccuracy_canonical (sign : Sign) {mantissa : Nat} {exponent : Int}
    (mantissa_pos : 0 < mantissa) (canonical : Canonical mantissa exponent) (places : Nat) :
    roundWithAccuracy Format.binary64 sign (2 ^ places * mantissa) (exponent - places) .exact =
      .finite sign mantissa exponent mantissa_pos := by
  have again := shiftToTargetExponent_canonical mantissa_pos canonical 0
  rw [Nat.pow_zero, Nat.one_mul, Int.natCast_zero, Int.sub_zero] at again
  rw [roundWithAccuracy, shiftToTargetExponent_canonical mantissa_pos canonical places]
  simp only [ExtendedMantissa.roundedMantissa, ExtendedMantissa.accuracy,
    Accuracy.roundToNearestEven, again]
  exact dif_neg (Nat.ne_of_gt mantissa_pos)

end Packing

theorem ofModel_pack_unpack (v : Float) :
    Float.ofModel (Float.Model.pack v.toModel.unpack) = v := by
  obtain ⟨bits, valid⟩ := v
  have packed := pack_unpack valid
  simp only [Float.Model.pack, Float.Model.unpack, packed]

theorem ofBits_toBits (v : Float) : Float.ofBits v.toBits = v := ofModel_pack_unpack v

section Sign

open Float.Model Float.Model.UnpackedFloat

theorem toNat_unpackExponent (w : BitVec Format.binary64.numBits) :
    (unpackExponent w).toNat = w.toNat / 2 ^ 52 % 2 ^ 11 := by
  change (BitVec.extractLsb 62 52 w).toNat = _
  rw [BitVec.extractLsb_toNat, Nat.shiftRight_eq_div_pow]

theorem toNat_unpackMantissa (w : BitVec Format.binary64.numBits) :
    (unpackMantissa w).toNat = w.toNat % 2 ^ 52 := by
  change (BitVec.extractLsb 51 0 w).toNat = _
  rw [BitVec.extractLsb_toNat, Nat.shiftRight_zero]

theorem toNat_unpackSign (w : BitVec Format.binary64.numBits) :
    (unpackSign w).toNat = w.toNat / 2 ^ 63 := by
  change (BitVec.extractLsb 63 63 w).toNat = _
  rw [BitVec.extractLsb_toNat, Nat.shiftRight_eq_div_pow]
  have := w.isLt
  change _ < 2 ^ 64 at this
  omega

theorem isFinite_unpack_iff (w : BitVec Format.binary64.numBits) :
    (UnpackedFloat.unpack Format.binary64 w).isFinite = true ↔ unpackExponent w ≠ -1#_ := by
  rw [UnpackedFloat.unpack]
  split
  · rename_i greatest
    refine iff_of_false ?_ (not_not_intro greatest)
    split <;> exact Bool.noConfusion
  · rename_i bounded
    refine iff_of_true ?_ bounded
    split
    · split <;> rfl
    · rfl

theorem neg_unpack {w w' : BitVec Format.binary64.numBits}
    (exponent_eq : unpackExponent w = unpackExponent w')
    (mantissa_eq : unpackMantissa w = unpackMantissa w')
    (sign_eq : -Sign.ofBitVec (unpackSign w) = Sign.ofBitVec (unpackSign w')) :
    (UnpackedFloat.unpack Format.binary64 w).neg = UnpackedFloat.unpack Format.binary64 w' := by
  simp only [UnpackedFloat.unpack, exponent_eq, mantissa_eq, ← sign_eq]
  split
  · split <;> rfl
  · split
    · split <;> rfl
    · rfl

theorem unpackExponent_ne_iff (w : BitVec Format.binary64.numBits) :
    unpackExponent w ≠ -1#_ ↔ w.toNat % 2 ^ 63 < infinityBits := by
  have field_eq := toNat_unpackExponent w
  have greatest_iff : unpackExponent w = -1#_ ↔ (unpackExponent w).toNat = 2047 :=
    BitVec.toNat_inj.symm
  rw [Ne, greatest_iff, infinityBits, fractionBits]
  omega

/-- The finite doubles are those whose magnitude bits lie below the ones of infinity. -/
theorem isFinite_iff (v : Float) : v.isFinite = true ↔ magnitude v < infinityBits :=
  (isFinite_unpack_iff _).trans (unpackExponent_ne_iff _)

theorem ofSignAndBits_eq (v : Float) : ofSignAndBits (isNegative v) (magnitude v) = v := by
  have word_lt : v.toBits.toNat < 2 ^ 64 := v.toBits.toNat_lt
  have word_eq : (if isNegative v then signWeight else 0) + magnitude v = v.toBits.toNat := by
    unfold isNegative magnitude signWeight
    split
    · rename_i negative
      have := of_decide_eq_true negative
      omega
    · rename_i positive
      have : ¬ 2 ^ 63 ≤ v.toBits.toNat := fun le => positive (decide_eq_true le)
      omega
  rw [ofSignAndBits, word_eq, UInt64.ofNat_toNat, ofBits_toBits]

theorem neg_ofSignAndBits {bits : Nat} (finite : bits < infinityBits) :
    -ofSignAndBits false bits = ofSignAndBits true bits := by
  let word (negative : Bool) : BitVec Format.binary64.numBits :=
    (UInt64.ofNat ((if negative then signWeight else 0) + bits)).toBitVec
  have bits_lt : bits < 2 ^ 63 := Nat.lt_of_lt_of_le finite (by decide)
  have positive_eq : (word false).toNat = bits :=
    UInt64.toNat_ofNat_of_lt' (show 0 + bits < 2 ^ 64 by omega) |>.trans (Nat.zero_add bits)
  have negative_eq : (word true).toNat = 2 ^ 63 + bits :=
    UInt64.toNat_ofNat_of_lt' (show 2 ^ 63 + bits < 2 ^ 64 by omega)
  have bounded : unpackExponent (word false) ≠ -1#_ := by
    rw [unpackExponent_ne_iff, positive_eq, Nat.mod_eq_of_lt bits_lt]
    exact finite
  have exponent_eq : unpackExponent (word false) = unpackExponent (word true) := by
    refine BitVec.eq_of_toNat_eq ?_
    rw [toNat_unpackExponent, toNat_unpackExponent, positive_eq, negative_eq]
    omega
  have mantissa_eq : unpackMantissa (word false) = unpackMantissa (word true) := by
    refine BitVec.eq_of_toNat_eq ?_
    rw [toNat_unpackMantissa, toNat_unpackMantissa, positive_eq, negative_eq]
    omega
  have positive_sign : unpackSign (word false) = 0#1 := by
    refine BitVec.eq_of_toNat_eq ?_
    rw [toNat_unpackSign, positive_eq, Nat.div_eq_of_lt bits_lt]
    rfl
  have negative_sign : unpackSign (word true) = 1#1 := by
    refine BitVec.eq_of_toNat_eq ?_
    rw [toNat_unpackSign, negative_eq, Nat.add_div_left _ (by decide), Nat.div_eq_of_lt bits_lt]
    rfl
  have opposite :
      -Sign.ofBitVec (unpackSign (word false)) = Sign.ofBitVec (unpackSign (word true)) := by
    rw [positive_sign, negative_sign]
    rfl
  have unpacked := neg_unpack exponent_eq mantissa_eq opposite
  change Float.ofModel (Float.Model.pack (UnpackedFloat.unpack Format.binary64
    (UnpackedFloat.pack Format.binary64 (UnpackedFloat.unpack Format.binary64 (word false)))).neg) =
      Float.ofModel (Float.Model.pack (UnpackedFloat.unpack Format.binary64 (word true)))
  rw [pack_unpack ⟨fun greatest => absurd greatest bounded⟩, unpacked]

/-- The double without its sign. -/
def absolute (v : Float) : Float := ofSignAndBits false (magnitude v)

theorem absolute_of_not_isNegative {v : Float} (positive : isNegative v = false) :
    absolute v = v := by
  have whole := ofSignAndBits_eq v
  rwa [positive] at whole

theorem neg_absolute {v : Float} (finite : v.isFinite = true) (negative : isNegative v = true) :
    -absolute v = v := by
  have whole := ofSignAndBits_eq v
  rw [absolute, neg_ofSignAndBits ((isFinite_iff v).mp finite)]
  rwa [negative] at whole

end Sign

section Neutral

variable {v : Float}

/-- Zero is neutral to every other number. -/
theorem zero_add_of_ne (finite : v.isFinite = true) (nonzero : (v == 0) = false) : 0 + v = v := by
  have zero_eq : (0 : Float).toModel.unpack = .zero .positive := rfl
  have added : Float.Model.UnpackedFloat.add .binary64 (0 : Float).toModel.unpack v.toModel.unpack =
      v.toModel.unpack := by
    change v.toModel.unpack.isFinite = true at finite
    change v.toModel.unpack.beq (0 : Float).toModel.unpack = false at nonzero
    rw [zero_eq] at nonzero ⊢
    cases unpacked : v.toModel.unpack with
    | zero sign =>
        rw [unpacked] at nonzero
        cases nonzero
    | finite sign mantissa exponent mantissa_pos => rfl
    | _ =>
        rw [unpacked] at finite
        cases finite
  change Float.ofModel (Float.Model.pack _) = v
  rw [added, ofModel_pack_unpack]

theorem one_mul_of_finite (finite : v.isFinite = true) : 1 * v = v := by
  have one_eq : (1 : Float).toModel.unpack = .finite .positive (2 ^ 52) (-52) (by decide) := rfl
  have multiplied : Float.Model.UnpackedFloat.mul .binary64 (1 : Float).toModel.unpack
      v.toModel.unpack = v.toModel.unpack := by
    change v.toModel.unpack.isFinite = true at finite
    rw [one_eq]
    cases unpacked : v.toModel.unpack with
    | zero sign => cases sign <;> rfl
    | finite sign mantissa exponent mantissa_pos =>
        have rounded := roundWithAccuracy_canonical sign mantissa_pos (canonical_unpack unpacked) 52
        rw [Int.sub_eq_add_neg, Int.add_comm] at rounded
        cases sign <;> exact rounded
    | _ =>
        rw [unpacked] at finite
        cases finite
  change Float.ofModel (Float.Model.pack _) = v
  rw [multiplied, ofModel_pack_unpack]

theorem isNaN_of_finite (finite : v.isFinite = true) : v.isNaN = false := by
  change v.toModel.unpack.isNaN = false
  change v.toModel.unpack.isFinite = true at finite
  cases unpacked : v.toModel.unpack with
  | notANumber =>
      rw [unpacked] at finite
      cases finite
  | _ => rfl

theorem compare_infinity (finite : v.isFinite = true) (sign : Float.Model.UnpackedFloat.Sign) :
    v.toModel.unpack.compare (.infinity sign) =
        some (match sign with | .positive => .lt | .negative => .gt) ∧
      Float.Model.UnpackedFloat.compare (.infinity sign) v.toModel.unpack =
        some (match sign with | .positive => .gt | .negative => .lt) := by
  change v.toModel.unpack.isFinite = true at finite
  cases unpacked : v.toModel.unpack with
  | zero sign' => cases sign <;> exact ⟨rfl, rfl⟩
  | finite sign' => cases sign <;> cases sign' <;> exact ⟨rfl, rfl⟩
  | _ =>
      rw [unpacked] at finite
      cases finite

theorem max_negInf_of_finite (finite : v.isFinite = true) : Scalar.max Scalar.negInf v = v := by
  have not_less : Scalar.lt v Scalar.negInf = false := by
    refine decide_eq_false fun less => ?_
    have less : (v.toModel.unpack.compare (.infinity .negative) == some .lt) = true :=
      of_decide_eq_true less
    rw [(compare_infinity finite .negative).1] at less
    cases less
  have not_nan : Scalar.isNaN v = false := isNaN_of_finite finite
  have bound_not_nan : Scalar.isNaN (Scalar.negInf : Float) = false := rfl
  simp [Scalar.max, not_nan, bound_not_nan, not_less]

theorem min_posInf_of_finite (finite : v.isFinite = true) : Scalar.min Scalar.posInf v = v := by
  have not_less : Scalar.lt Scalar.posInf v = false := by
    refine decide_eq_false fun less => ?_
    have less : (Float.Model.UnpackedFloat.compare (.infinity .positive) v.toModel.unpack ==
      some .lt) = true := of_decide_eq_true less
    rw [(compare_infinity finite .positive).2] at less
    cases less
  have not_nan : Scalar.isNaN v = false := isNaN_of_finite finite
  have bound_not_nan : Scalar.isNaN (Scalar.posInf : Float) = false := rfl
  simp [Scalar.min, not_nan, bound_not_nan, not_less]

/-- Exactly the finite numbers have no symbol. -/
theorem ofNonFinite?_eq_none_iff : Symbol.ofNonFinite? v = none ↔ v.isFinite = true := by
  constructor
  · intro regular
    unfold Symbol.ofNonFinite? at regular
    split at regular
    · cases regular
    · rename_i not_nan
      split at regular
      · cases regular
      · rename_i not_above
        split at regular
        · cases regular
        · rename_i not_below
          change v.toModel.unpack.isFinite = true
          change ¬v.toModel.unpack.isNaN = true at not_nan
          change ¬(v.toModel.unpack.compare (.infinity .positive) == some .eq) = true at not_above
          change ¬(v.toModel.unpack.compare (.infinity .negative) == some .eq) = true at not_below
          cases unpacked : v.toModel.unpack with
          | infinity sign =>
              rw [unpacked] at not_above not_below
              cases sign with
              | positive => exact absurd rfl not_above
              | negative => exact absurd rfl not_below
          | notANumber =>
              rw [unpacked] at not_nan
              exact absurd rfl not_nan
          | _ => rfl
  · intro finite
    have below : Scalar.eq v Scalar.posInf = false := by
      change (v.toModel.unpack.compare (.infinity .positive) == some .eq) = false
      rw [(compare_infinity finite .positive).1]
      rfl
    have above : Scalar.eq v Scalar.negInf = false := by
      change (v.toModel.unpack.compare (.infinity .negative) == some .eq) = false
      rw [(compare_infinity finite .negative).1]
      rfl
    have not_nan : Scalar.isNaN v = false := isNaN_of_finite finite
    simp [Symbol.ofNonFinite?, not_nan, below, above]

end Neutral

end Double
end FormulaFit
