import FormulaFit.Data.Dataset
import FormulaFit.Double
import Mathlib.Tactic.Common

/-!
# Finite doubles

An infinite or undefined double stays infinite or undefined through sums, differences and products,
and as a dividend.  Hence a finite mean squared error has only finite predictions behind it.
-/

namespace FormulaFit

namespace Double

section Packing

open Float.Model

theorem isFinite_unpack_packComponents (sign : UnpackedFloat.Sign)
    (mantissa : BitVec Format.binary64.mantissaBitsWithoutImplicit) :
    (UnpackedFloat.unpack Format.binary64
      (UnpackedFloat.packComponents Format.binary64 sign (-1#_) mantissa)).isFinite = false := by
  have greatest : UnpackedFloat.unpackExponent
      (UnpackedFloat.packComponents Format.binary64 sign (-1#_) mantissa) = -1#_ :=
    UnpackedFloat.unpackExponent_packComponents
  refine (congrArg UnpackedFloat.isFinite (if_pos greatest)).trans ?_
  split <;> rfl

theorem isFinite_of_pack {u : UnpackedFloat}
    (finite : (Float.ofModel (Float.Model.pack u)).isFinite = true) : u.isFinite = true := by
  cases u with
  | infinity sign =>
      have packed : (Float.ofModel (Float.Model.pack (.infinity sign))).isFinite = false :=
        isFinite_unpack_packComponents sign 0
      rw [packed] at finite
      cases finite
  | notANumber =>
      have packed : (Float.ofModel (Float.Model.pack .notANumber)).isFinite = false :=
        isFinite_unpack_packComponents .positive (1#_ <<< 51)
      rw [packed] at finite
      cases finite
  | zero sign => rfl
  | finite sign mantissa exponent mantissa_pos => rfl

end Packing

theorem isFinite_of_add {a b : Float} (finite : (a + b).isFinite = true) :
    a.isFinite = true ∧ b.isFinite = true := by
  have unpacked := isFinite_of_pack finite
  change a.toModel.unpack.isFinite = true ∧ b.toModel.unpack.isFinite = true
  generalize a.toModel.unpack = u at unpacked
  generalize b.toModel.unpack = w at unpacked
  cases u with
  | notANumber => cases w <;> exact Bool.noConfusion unpacked
  | infinity sign =>
      cases w with
      | infinity sign' => cases sign <;> cases sign' <;> exact Bool.noConfusion unpacked
      | _ => exact Bool.noConfusion unpacked
  | _ =>
      cases w with
      | notANumber | infinity => exact Bool.noConfusion unpacked
      | _ => exact ⟨rfl, rfl⟩

theorem isFinite_of_sub {a b : Float} (finite : (a - b).isFinite = true) :
    a.isFinite = true ∧ b.isFinite = true := by
  have unpacked := isFinite_of_pack finite
  change a.toModel.unpack.isFinite = true ∧ b.toModel.unpack.isFinite = true
  generalize a.toModel.unpack = u at unpacked
  generalize b.toModel.unpack = w at unpacked
  cases u with
  | notANumber => cases w <;> exact Bool.noConfusion unpacked
  | infinity sign =>
      cases w with
      | infinity sign' => cases sign <;> cases sign' <;> exact Bool.noConfusion unpacked
      | _ => exact Bool.noConfusion unpacked
  | _ =>
      cases w with
      | notANumber | infinity => exact Bool.noConfusion unpacked
      | _ => exact ⟨rfl, rfl⟩

theorem isFinite_of_mul {a b : Float} (finite : (a * b).isFinite = true) :
    a.isFinite = true ∧ b.isFinite = true := by
  have unpacked := isFinite_of_pack finite
  change a.toModel.unpack.isFinite = true ∧ b.toModel.unpack.isFinite = true
  generalize a.toModel.unpack = u at unpacked
  generalize b.toModel.unpack = w at unpacked
  cases u with
  | notANumber | infinity => cases w <;> exact Bool.noConfusion unpacked
  | _ =>
      cases w with
      | notANumber | infinity => exact Bool.noConfusion unpacked
      | _ => exact ⟨rfl, rfl⟩

theorem isFinite_of_div {a b : Float} (finite : (a / b).isFinite = true) : a.isFinite = true := by
  have unpacked := isFinite_of_pack finite
  change a.toModel.unpack.isFinite = true
  generalize a.toModel.unpack = u at unpacked
  generalize b.toModel.unpack = w at unpacked
  cases u with
  | notANumber | infinity => cases w <;> exact Bool.noConfusion unpacked
  | _ => rfl

/-- Results that are finite only over finite operands, entry by entry, show both lists finite. -/
theorem isFinite_of_zipWith {f : Float → Float → Float}
    (operands : ∀ a b, (f a b).isFinite = true → a.isFinite = true ∧ b.isFinite = true)
    {first second : List Float} (finite : ∀ v ∈ List.zipWith f first second, v.isFinite = true)
    (length_eq : first.length = second.length) :
    (∀ v ∈ first, v.isFinite = true) ∧ ∀ v ∈ second, v.isFinite = true := by
  induction first generalizing second with
  | nil =>
      obtain rfl := List.length_eq_zero_iff.mp length_eq.symm
      simp
  | cons a first ih =>
      cases second with
      | nil => cases length_eq
      | cons b second =>
          obtain ⟨head_finite, rest_finite⟩ := List.forall_mem_cons.mp finite
          obtain ⟨first_finite, second_finite⟩ := ih rest_finite (Nat.succ.inj length_eq)
          obtain ⟨a_finite, b_finite⟩ := operands a b head_finite
          exact ⟨List.forall_mem_cons.mpr ⟨a_finite, first_finite⟩,
            List.forall_mem_cons.mpr ⟨b_finite, second_finite⟩⟩

theorem isFinite_of_foldl_add {values : List Float} {start : Float}
    (finite : (values.foldl (· + ·) start).isFinite = true) :
    start.isFinite = true ∧ ∀ v ∈ values, v.isFinite = true := by
  induction values generalizing start with
  | nil => exact ⟨finite, by simp⟩
  | cons v values ih =>
      obtain ⟨sum_finite, rest_finite⟩ := ih finite
      obtain ⟨start_finite, v_finite⟩ := isFinite_of_add sum_finite
      exact ⟨start_finite, List.forall_mem_cons.mpr ⟨v_finite, rest_finite⟩⟩

end Double

namespace Lanes

/-- The partial sums, first lane first. -/
def entries {α : Type} (p : Lanes α) : List α := [p.p0, p.p1, p.p2, p.p3, p.p4, p.p5, p.p6, p.p7]

theorem isFinite_of_total {p : Lanes Float} (finite : p.total.isFinite = true) :
    ∀ v ∈ p.entries, v.isFinite = true := by
  obtain ⟨rest, last⟩ := Double.isFinite_of_add finite
  obtain ⟨rest, third⟩ := Double.isFinite_of_add rest
  obtain ⟨rest, second⟩ := Double.isFinite_of_add rest
  have first := (Double.isFinite_of_add rest).2
  have pairs := And.intro (Double.isFinite_of_add first) (And.intro (Double.isFinite_of_add second)
    (And.intro (Double.isFinite_of_add third) (Double.isFinite_of_add last)))
  simp only [entries, List.forall_mem_cons, List.not_mem_nil, false_imp_iff, implies_true, and_true]
  tauto

theorem isFinite_of_sumFrom {p : Lanes Float} {values : List Float}
    (finite : (p.sumFrom values).isFinite = true) :
    (∀ v ∈ p.entries, v.isFinite = true) ∧ ∀ v ∈ values, v.isFinite = true := by
  induction p, values using sumFrom.induct with
  | case1 p a b c d e f g h rest ih =>
      obtain ⟨lanes_finite, rest_finite⟩ := ih (by rwa [sumFrom] at finite)
      have sums_finite : ∀ v ∈ List.zipWith (· + ·) p.entries [a, b, c, d, e, f, g, h],
          v.isFinite = true := lanes_finite
      obtain ⟨before_finite, block_finite⟩ :=
        Double.isFinite_of_zipWith (fun _ _ => Double.isFinite_of_add) sums_finite rfl
      refine ⟨before_finite, fun v member => ?_⟩
      rcases List.mem_append.mp (show v ∈ [a, b, c, d, e, f, g, h] ++ rest from member) with
        member | member
      · exact block_finite v member
      · exact rest_finite v member
  | case2 p rest short =>
      rw [sumFrom] at finite
      · obtain ⟨total_finite, rest_finite⟩ := Double.isFinite_of_foldl_add finite
        exact ⟨isFinite_of_total total_finite, rest_finite⟩
      · exact short

end Lanes

theorem isFinite_of_laneMean {values : List Float} (finite : (laneMean values).isFinite = true) :
    ∀ v ∈ values, v.isFinite = true :=
  (Lanes.isFinite_of_sumFrom (Double.isFinite_of_div finite)).2

/-- A finite error is that of one finite prediction for every target. -/
theorem Dataset.isFinite_of_error {data : Dataset} {predictions : List Float}
    (finite : (data.error predictions).isFinite = true) :
    predictions.length = data.rowCount ∧ ∀ v ∈ predictions, v.isFinite = true := by
  rw [Dataset.error, meanSquaredError] at finite
  split at finite
  · have undefined : ((0 : Float) / 0).isFinite = false := by decide
    exact absurd (undefined.symm.trans finite) Bool.false_ne_true
  · rename_i matched
    simp only [ne_eq, Bool.or_eq_true, decide_eq_true_eq, not_or, not_not] at matched
    have residuals_finite : ∀ r ∈ List.zipWith (· - ·) data.targets predictions,
        r.isFinite = true := fun r member =>
      (Double.isFinite_of_mul (isFinite_of_laneMean finite _ (List.mem_map_of_mem member))).1
    exact ⟨matched.1.symm,
      (Double.isFinite_of_zipWith (fun _ _ => Double.isFinite_of_sub) residuals_finite
        matched.1).2⟩

end FormulaFit
