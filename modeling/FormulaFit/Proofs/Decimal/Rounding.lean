import FormulaFit.Decimal.Shortest
import Mathlib.Tactic.Common
import Mathlib.Tactic.Ring

/-!
# Rounding to the nearest double

The parts of a finite double determine its bits, and a fraction rounds to a double if it lies in the
interval of the double.  Next to a power of two the interval reaches into the finer spacing below,
where the fraction rounds up to the power.
-/

namespace FormulaFit
namespace Double

/-- The quotient nearest to a whole number rounds to it, from halfway only if it is even. -/
theorem roundHalfEven_eq {num den m : Nat} (den_pos : 0 < den) (low : 2 * (m * den) ≤ 2 * num + den)
    (high : 2 * num ≤ 2 * (m * den) + den)
    (even : 2 * (m * den) = 2 * num + den ∨ 2 * num = 2 * (m * den) + den → m % 2 = 0) :
    roundHalfEven num den = m := by
  let q := num / den
  let r := num % den
  have r_lt : r < den := Nat.mod_lt num den_pos
  have num_eq : num = q * den + r := by rw [Nat.mul_comm]; exact (Nat.div_add_mod num den).symm
  have le_of_le {a b : Nat} (le : a * den < (b + 1) * den) : a ≤ b :=
    Nat.le_of_lt_succ (Nat.lt_of_mul_lt_mul_right le)
  change (if 2 * r < den then q else if den < 2 * r then q + 1 else q + q % 2) = m
  have m_le : m ≤ q + 1 := le_of_le (by rw [Nat.add_mul, Nat.add_mul]; omega)
  have q_le : q ≤ m := le_of_le (by rw [Nat.add_mul]; omega)
  obtain rfl | rfl : m = q ∨ m = q + 1 := by omega
  · have shifted := Nat.add_mul q 1 den
    split
    · rfl
    · split
      · omega
      · have is_even := even (.inr (by omega))
        omega
  · rw [Nat.add_mul] at low high even
    split
    · omega
    · split
      · rfl
      · have is_even := even (.inl (by omega))
        omega

theorem roundHalfEven_mul_right (num den : Nat) {factor : Nat} (factor_pos : 0 < factor) :
    roundHalfEven (num * factor) (den * factor) = roundHalfEven num den := by
  simp only [roundHalfEven, Nat.mul_div_mul_right _ _ factor_pos, Nat.mul_mod_mul_right,
    ← Nat.mul_assoc, Nat.mul_lt_mul_right factor_pos]

theorem nearestBits_mul_right (num den : Nat) {factor : Nat} (factor_pos : 0 < factor) :
    nearestBits (num * factor) (den * factor) = nearestBits num den := by
  simp only [nearestBits, Nat.mul_right_comm _ factor, Nat.mul_div_mul_right _ _ factor_pos,
    roundHalfEven_mul_right _ _ factor_pos]

/-- The parts of the bits of a finite double. -/
structure Parts.Finite (p : Parts) : Prop where
  mantissa_lt : p.mantissa < 2 ^ 53
  place_le : p.place ≤ 2045
  leading : 2 ^ 52 ≤ p.mantissa ∨ p.place = 0

theorem parts_finite {bits : Nat} (finite : bits < infinityBits) : (parts bits).Finite := by
  have split_eq := Nat.div_add_mod bits (2 ^ 52)
  have fraction_lt := Nat.mod_lt bits (Nat.two_pow_pos 52)
  unfold infinityBits fractionBits at finite
  unfold parts fractionBits
  dsimp only
  split
  · exact ⟨by dsimp only; omega, by dsimp only; omega, .inr rfl⟩
  · exact ⟨by dsimp only; omega, by dsimp only; omega, .inl (Nat.le_add_left _ _)⟩

theorem place_mul_add_mantissa (bits : Nat) :
    (parts bits).place * 2 ^ 52 + (parts bits).mantissa = bits := by
  have split_eq := Nat.div_add_mod bits (2 ^ 52)
  unfold parts fractionBits
  dsimp only
  generalize 2 ^ 52 = weight at split_eq ⊢
  split
  · rename_i subnormal
    rw [subnormal, Nat.mul_zero] at split_eq
    rw [Nat.zero_mul, split_eq]
  · rename_i normal
    obtain ⟨field, field_eq⟩ := Nat.exists_eq_succ_of_ne_zero normal
    rw [field_eq, Nat.mul_succ, Nat.mul_comm] at split_eq
    rw [field_eq, Nat.succ_sub_one]
    change field * weight + (bits % weight + weight) = bits
    omega

/-- A quotient between neighbouring powers of two decides the spacing, and one below all of them
the least spacing. -/
theorem log2_div_sub {num den place : Nat} (den_pos : 0 < den)
    (low : 2 ^ (52 + place) * den ≤ num ∨ place = 0) (high : num < 2 ^ (53 + place) * den) :
    (num / den).log2 - fractionBits = place := by
  have quotient_lt : num / den < 2 ^ (53 + place) := (Nat.div_lt_iff_lt_mul den_pos).mpr high
  rcases low with low | rfl
  · have le_quotient : 2 ^ (52 + place) ≤ num / den := (Nat.le_div_iff_mul_le den_pos).mpr low
    have positive := Nat.lt_of_lt_of_le (Nat.two_pow_pos (52 + place)) le_quotient
    rw [(Nat.log2_eq_iff (Nat.ne_of_gt positive)).mpr ⟨le_quotient, by
      rwa [show 52 + place + 1 = 53 + place by omega]⟩]
    exact Nat.add_sub_cancel_left 52 place
  · rcases Nat.eq_zero_or_pos (num / den) with zero | positive
    · rw [zero]
      rfl
    · have log2_lt := (Nat.log2_lt (Nat.ne_of_gt positive)).mpr quotient_lt
      unfold fractionBits
      omega

theorem nearestBits_eq {num den units place m : Nat} (units_eq : num * 2 ^ unitPlace = units)
    (den_pos : 0 < den) (spaced : (units / den).log2 - fractionBits = place)
    (finite : place * 2 ^ 52 + m < infinityBits)
    (low : 2 * (m * (den * 2 ^ place)) ≤ 2 * units + den * 2 ^ place)
    (high : 2 * units ≤ 2 * (m * (den * 2 ^ place)) + den * 2 ^ place)
    (even : 2 * (m * (den * 2 ^ place)) = 2 * units + den * 2 ^ place ∨
      2 * units = 2 * (m * (den * 2 ^ place)) + den * 2 ^ place → m % 2 = 0) :
    nearestBits num den = place * 2 ^ 52 + m := by
  have spacing_pos := Nat.mul_pos den_pos (Nat.two_pow_pos place)
  rw [nearestBits, units_eq, spaced, roundHalfEven_eq spacing_pos low high even]
  exact Nat.min_eq_left (Nat.le_of_lt finite)

end Double

namespace Decimal

theorem Interval.bounds_of_contains {i : Interval} {a b : Nat} (inside : i.contains a b = true) :
    i.low * b ≤ a ∧ a ≤ i.high * b ∧ (i.low * b = a ∨ a = i.high * b → i.closed = true) := by
  rw [contains] at inside
  split at inside
  · rename_i closed
    simp only [Bool.and_eq_true, decide_eq_true_eq] at inside
    exact ⟨inside.1, inside.2, fun _ => closed⟩
  · simp only [Bool.and_eq_true, decide_eq_true_eq] at inside
    exact ⟨by omega, by omega, by omega⟩

/-- Distance of the lower end from the double, in quarters of its spacing. -/
def Interval.reach (p : Double.Parts) : Nat := if p.mantissa = 2 ^ 52 && p.place ≠ 0 then 1 else 2

theorem Interval.reach_pos (p : Double.Parts) : 0 < Interval.reach p ∧ Interval.reach p ≤ 2 := by
  unfold reach
  split <;> decide

/-- What lies in the interval of a double is at most half a spacing away from it, and less unless
its mantissa is even. -/
theorem Interval.distance_of_contains {p : Double.Parts} {units den spacing : Nat}
    (spacing_eq : den * 2 ^ p.place = spacing)
    (inside : (Interval.ofParts p).contains (4 * units) den = true) :
    4 * (p.mantissa * spacing) ≤ 4 * units + reach p * spacing ∧
      4 * units ≤ 4 * (p.mantissa * spacing) + 2 * spacing ∧
      (4 * (p.mantissa * spacing) = 4 * units + reach p * spacing ∨
        4 * units = 4 * (p.mantissa * spacing) + 2 * spacing → p.mantissa % 2 = 0) := by
  obtain ⟨low, high, ends⟩ := bounds_of_contains inside
  change (4 * p.mantissa - reach p) * 2 ^ p.place * den ≤ _ at low
  change _ ≤ (4 * p.mantissa + 2) * 2 ^ p.place * den at high
  change ((4 * p.mantissa - reach p) * 2 ^ p.place * den = _ ∨
    _ = (4 * p.mantissa + 2) * 2 ^ p.place * den → (p.mantissa % 2 == 0) = true) at ends
  rw [Nat.mul_assoc, Nat.mul_comm (2 ^ p.place) den, spacing_eq, Nat.sub_mul, Nat.mul_assoc] at low
  rw [Nat.mul_assoc, Nat.mul_comm (2 ^ p.place) den, spacing_eq, Nat.add_mul, Nat.mul_assoc] at high
  rw [Nat.mul_assoc, Nat.mul_assoc, Nat.mul_comm (2 ^ p.place) den, spacing_eq, Nat.sub_mul,
    Nat.add_mul, Nat.mul_assoc] at ends
  refine ⟨Nat.sub_le_iff_le_add.mp low, high, fun tie => eq_of_beq (ends ?_)⟩
  omega

end Decimal

namespace Double

section Contained

variable {num den units place m : Nat}

theorem two_pow_add_mul (n place den : Nat) :
    2 ^ (n + place) * den = 2 ^ n * (den * 2 ^ place) := by
  rw [Nat.pow_add, Nat.mul_assoc, Nat.mul_comm (2 ^ place) den]

theorem nearestBits_of_spaced {reach : Nat} (units_eq : num * 2 ^ unitPlace = units)
    (den_pos : 0 < den) (mantissa_lt : m < 2 ^ 53) (finite : place * 2 ^ 52 + m < infinityBits)
    (reach_le : reach ≤ 2) (spaced : 2 ^ (52 + place) * den ≤ units ∨ place = 0)
    (low : 4 * (m * (den * 2 ^ place)) ≤ 4 * units + reach * (den * 2 ^ place))
    (high : 4 * units ≤ 4 * (m * (den * 2 ^ place)) + 2 * (den * 2 ^ place))
    (even : 4 * (m * (den * 2 ^ place)) = 4 * units + reach * (den * 2 ^ place) ∨
      4 * units = 4 * (m * (den * 2 ^ place)) + 2 * (den * 2 ^ place) → m % 2 = 0) :
    nearestBits num den = place * 2 ^ 52 + m := by
  have spacing_pos : 0 < den * 2 ^ place := Nat.mul_pos den_pos (Nat.two_pow_pos place)
  have low_reach : reach * (den * 2 ^ place) ≤ 2 * (den * 2 ^ place) :=
    Nat.mul_le_mul_right _ reach_le
  have high_lt : units < 2 ^ (53 + place) * den := by
    have mantissa_le := Nat.mul_le_mul_right (den * 2 ^ place) (Nat.succ_le_of_lt mantissa_lt)
    rw [Nat.succ_mul] at mantissa_le
    rw [two_pow_add_mul]
    omega
  refine nearestBits_eq units_eq den_pos (log2_div_sub den_pos spaced high_lt) finite ?_ ?_ ?_
  · omega
  · omega
  · rintro (tie | tie)
    · exact even (.inl (by omega))
    · exact even (.inr (by omega))

/-- A fraction just below a power of two, in the finer spacing there, rounds up to the power from
half a finer spacing at most. -/
theorem nearestBits_of_power (units_eq : num * 2 ^ unitPlace = units) (den_pos : 0 < den)
    (finite : (place + 1) * 2 ^ 52 + 2 ^ 52 < infinityBits)
    (below : units < 2 ^ 52 * (den * 2 ^ (place + 1)))
    (low : 4 * (2 ^ 52 * (den * 2 ^ (place + 1))) ≤ 4 * units + den * 2 ^ (place + 1)) :
    nearestBits num den = (place + 1) * 2 ^ 52 + 2 ^ 52 := by
  have spacing_pos : 0 < den * 2 ^ place := Nat.mul_pos den_pos (Nat.two_pow_pos place)
  have double_eq : den * 2 ^ (place + 1) = 2 * (den * 2 ^ place) := by
    rw [Nat.pow_succ, ← Nat.mul_assoc, Nat.mul_comm]
  rw [double_eq] at below low
  have carried : place * 2 ^ 52 + 2 ^ 53 = (place + 1) * 2 ^ 52 + 2 ^ 52 := by omega
  have low' : 2 ^ (52 + place) * den ≤ units := by
    rw [two_pow_add_mul]
    omega
  have high' : units < 2 ^ (53 + place) * den := by
    rw [two_pow_add_mul]
    omega
  rw [← carried] at finite ⊢
  refine nearestBits_eq units_eq den_pos (log2_div_sub den_pos (.inl low') high') finite ?_ ?_
    fun _ => rfl
  · omega
  · omega

open Decimal in
theorem nearestBits_of_contains {bits : Nat} (finite : bits < infinityBits) (den_pos : 0 < den)
    (inside : (Interval.ofParts (parts bits)).contains (4 * (num * 2 ^ unitPlace)) den = true) :
    nearestBits num den = bits := by
  obtain ⟨mantissa_lt, -, leading⟩ := parts_finite finite
  have bits_eq := place_mul_add_mantissa bits
  generalize parts bits = p at *
  obtain ⟨m, place⟩ := p
  dsimp only at *
  generalize units_eq : num * 2 ^ unitPlace = units at *
  obtain ⟨low, high, even⟩ := Interval.distance_of_contains rfl inside
  have reach_le := (Interval.reach_pos ⟨m, place⟩).2
  subst bits_eq
  by_cases spaced : 2 ^ (52 + place) * den ≤ units ∨ place = 0
  · exact nearestBits_of_spaced units_eq den_pos mantissa_lt finite reach_le spaced low high even
  · -- The fraction lies just below a power of two, which can only be the double itself.
    obtain ⟨below, place_ne⟩ := not_or.mp spaced
    rw [two_pow_add_mul, Nat.not_le] at below
    have mantissa_eq : m = 2 ^ 52 := by
      refine Nat.le_antisymm (Nat.le_of_not_lt fun above => ?_) (leading.resolve_right place_ne)
      have scaled := Nat.mul_le_mul_right (den * 2 ^ place) (Nat.succ_le_of_lt above)
      have low_reach := Nat.mul_le_mul_right (den * 2 ^ place) reach_le
      rw [Nat.succ_mul] at scaled
      dsimp only at low
      omega
    have reach_eq : Interval.reach ⟨m, place⟩ = 1 := by
      simp [Interval.reach, mantissa_eq, place_ne]
    dsimp only at low
    rw [reach_eq, Nat.one_mul] at low
    subst mantissa_eq
    obtain ⟨finer, rfl⟩ := Nat.exists_eq_succ_of_ne_zero place_ne
    exact nearestBits_of_power units_eq den_pos finite below low

end Contained

end Double
end FormulaFit
