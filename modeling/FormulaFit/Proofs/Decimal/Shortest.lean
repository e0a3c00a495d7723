import FormulaFit.Proofs.Decimal.Rounding

/-!
# Shortest decimals round back

Every grid offers only decimals in the interval of the double, and the finest one that is tried is
finer than the interval, so that it offers one.  Hence the shortest decimal of a finite double
rounds to that double.
-/

namespace FormulaFit
namespace Decimal

open Double (parts infinityBits nearestBits unitPlace)

theorem contains_of_onGrid? {tie : Tie} {i : Interval} {exponent : Int} {d : Decimal}
    (found : onGrid? tie i exponent = some d) : d.exponent = exponent ∧
      i.contains (d.digits * (quarters * 10 ^ exponent.toNat)) (10 ^ (-exponent).toNat) = true := by
  unfold onGrid? at found
  dsimp only at found
  generalize quarters * 10 ^ exponent.toNat = step at found ⊢
  generalize 10 ^ (-exponent).toNat = scale at found ⊢
  split at found
  · cases found
  · obtain rfl := Option.some.inj found
    exact ⟨rfl, ‹_›⟩
  · obtain rfl := Option.some.inj found
    exact ⟨rfl, ‹_›⟩
  · split at found
    · obtain rfl := Option.some.inj found
      exact ⟨rfl, ‹_›⟩
    · split at found
      · obtain rfl := Option.some.inj found
        exact ⟨rfl, ‹_›⟩
      · cases tie with
        | up =>
            obtain rfl := Option.some.inj found
            exact ⟨rfl, ‹_›⟩
        | toEven =>
            obtain rfl := Option.some.inj found
            refine ⟨rfl, ?_⟩
            dsimp only
            split
            · assumption
            · assumption

/-- A grid at least as fine as the lower half of the interval offers a decimal. -/
theorem onGrid?_isSome (tie : Tie) {i : Interval} {exponent : Int} (centre_lt : i.centre < i.high)
    (fine : quarters * 10 ^ exponent.toNat ≤ (i.centre - i.low) * 10 ^ (-exponent).toNat) :
    (onGrid? tie i exponent).isSome = true := by
  have scale_pos : 0 < 10 ^ (-exponent).toNat := Nat.pow_pos (by decide)
  have step_pos : 0 < quarters * 10 ^ exponent.toNat :=
    Nat.mul_pos (Nat.mul_pos (by decide) (Nat.two_pow_pos unitPlace)) (Nat.pow_pos (by decide))
  unfold onGrid?
  dsimp only
  generalize quarters * 10 ^ exponent.toNat = step at *
  generalize 10 ^ (-exponent).toNat = scale at *
  have neighbour : i.contains (i.centre * scale / step * step) scale = true := by
    have split_eq := Nat.div_add_mod (i.centre * scale) step
    have remainder_lt := Nat.mod_lt (i.centre * scale) step_pos
    have high_lt := Nat.mul_lt_mul_of_pos_right centre_lt scale_pos
    rw [Nat.mul_comm] at split_eq
    rw [Nat.sub_mul] at fine
    unfold Interval.contains
    split <;> simp only [Bool.and_eq_true, decide_eq_true_eq] <;> omega
  rw [neighbour]
  split
  · contradiction
  · rfl
  · rfl
  · split
    · rfl
    · split
      · rfl
      · cases tie <;> rfl

/-- Exponent of the last grid that is tried for a double whose quarters have a binary logarithm. -/
def finestExponent (log : Nat) : Int :=
  ((log : Int) + 1 - (unitPlace + 2)) * 30103 / 100000 + 2 - (gridCount - 1 : Nat)

/-- The last grid is finer than the last of 54 binary digits of every double. -/
theorem finest_step_le : ∀ log ∈ List.range 2100,
    quarters * 10 ^ (finestExponent log).toNat ≤
      2 ^ (log - 54) * 10 ^ (-finestExponent log).toNat := by
  decide +kernel

section Grids

variable {p : Double.Parts}

theorem centre_sub_low (positive : p.mantissa ≠ 0) :
    (Interval.ofParts p).centre - (Interval.ofParts p).low = Interval.reach p * 2 ^ p.place := by
  obtain ⟨-, reach_le⟩ := Interval.reach_pos p
  change 4 * p.mantissa * 2 ^ p.place - (4 * p.mantissa - Interval.reach p) * 2 ^ p.place = _
  rw [← Nat.sub_mul]
  congr 1
  omega

theorem log2_centre_lt (finite : p.Finite) (positive : p.mantissa ≠ 0) :
    (Interval.ofParts p).centre.log2 < 55 + p.place := by
  have centre_eq : (Interval.ofParts p).centre = 4 * p.mantissa * 2 ^ p.place := rfl
  have centre_ne : (Interval.ofParts p).centre ≠ 0 := by
    rw [centre_eq]
    exact Nat.ne_of_gt (Nat.mul_pos (by omega) (Nat.two_pow_pos _))
  refine (Nat.log2_lt centre_ne).mpr ?_
  rw [centre_eq, Nat.pow_add]
  exact Nat.mul_lt_mul_of_pos_right (by have := finite.mantissa_lt; omega) (Nat.two_pow_pos _)

theorem exists_onGrid? (tie : Tie) (finite : p.Finite) (positive : p.mantissa ≠ 0) :
    (onGrid? tie (Interval.ofParts p) (topExponent (Interval.ofParts p) - (gridCount - 1 : Nat))
      ).isSome = true := by
  have log_lt := log2_centre_lt finite positive
  have place_le := finite.place_le
  have high_lt : (Interval.ofParts p).centre < (Interval.ofParts p).high :=
    Nat.mul_lt_mul_of_pos_right (by omega) (Nat.two_pow_pos _)
  refine onGrid?_isSome tie high_lt ?_
  refine Nat.le_trans (finest_step_le (Interval.ofParts p).centre.log2
    (List.mem_range.mpr (by omega))) (Nat.mul_le_mul_right _ ?_)
  rw [centre_sub_low positive]
  calc 2 ^ ((Interval.ofParts p).centre.log2 - 54) ≤ 2 ^ p.place :=
        Nat.pow_le_pow_right (by decide) (by omega)
    _ ≤ Interval.reach p * 2 ^ p.place := Nat.le_mul_of_pos_left _ (Interval.reach_pos p).1

end Grids

theorem toBits_eq {d : Decimal} (le : d.exponent ≤ exponentBound)
    (ge : -(exponentBound : Int) ≤ d.exponent) :
    d.toBits = nearestBits (d.digits * 10 ^ d.exponent.toNat) (10 ^ (-d.exponent).toNat) := by
  obtain ⟨digits, e | e⟩ := d
  · have e_le : e ≤ exponentBound := Int.ofNat_le.mp le
    simp [toBits, Nat.min_eq_left e_le]
  · have e_le : e + 1 ≤ exponentBound := Int.ofNat_le.mp (by simpa using Int.neg_le_neg ge)
    have cap : min (e + 1) (exponentBound + digits.log2 + 1) = e + 1 := by omega
    simp [toBits, cap]

theorem toBits_of_onGrid? {tie : Tie} {bits : Nat} {exponent : Int} {d : Decimal}
    (finite : bits < infinityBits) (le : exponent ≤ exponentBound)
    (ge : -(exponentBound : Int) ≤ exponent)
    (found : onGrid? tie (Interval.ofParts (parts bits)) exponent = some d) : d.toBits = bits := by
  obtain ⟨rfl, inside⟩ := contains_of_onGrid? found
  have units_eq (digits power : Nat) :
      digits * (quarters * power) = 4 * (digits * power * 2 ^ unitPlace) := by
    unfold quarters
    generalize 2 ^ unitPlace = one
    ring
  rw [units_eq] at inside
  rw [toBits_eq le ge]
  exact Double.nearestBits_of_contains finite (Nat.pow_pos (by decide)) inside

theorem shortest_cases (tie : Tie) {bits : Nat} (finite : bits < infinityBits) :
    (bits = 0 ∧ shortest tie bits = ⟨0, 0⟩) ∨
      ∃ exponent : Int, exponent ≤ exponentBound ∧ -(exponentBound : Int) ≤ exponent ∧
        onGrid? tie (Interval.ofParts (parts bits)) exponent = some (shortest tie bits) := by
  have bits_eq := Double.place_mul_add_mantissa bits
  have parts_finite := Double.parts_finite finite
  unfold shortest
  dsimp only
  split
  · rename_i zero
    have place_eq : (parts bits).place = 0 := parts_finite.leading.resolve_left (by omega)
    rw [place_eq, zero, Nat.zero_mul] at bits_eq
    exact .inl ⟨bits_eq.symm, rfl⟩
  · rename_i positive
    have log_lt := log2_centre_lt parts_finite positive
    have place_le := parts_finite.place_le
    have top_le : topExponent (Interval.ofParts (parts bits)) ≤ 310 := by
      unfold topExponent unitPlace
      omega
    have top_ge : -322 ≤ topExponent (Interval.ofParts (parts bits)) := by
      unfold topExponent unitPlace
      omega
    have last : gridCount - 1 ∈ List.range gridCount := List.mem_range.mpr (by decide)
    cases found : (List.range gridCount).findSome? fun (n : Nat) =>
      onGrid? tie (Interval.ofParts (parts bits)) (topExponent (Interval.ofParts (parts bits)) - n)
      with
    | none =>
        have offered := exists_onGrid? tie parts_finite positive
        rw [List.findSome?_eq_none_iff.mp found _ last] at offered
        cases offered
    | some d =>
        obtain ⟨n, member, offered⟩ := List.exists_of_findSome?_eq_some found
        have n_lt : n < 24 := List.mem_range.mp member
        exact .inr ⟨_, by unfold exponentBound; omega, by unfold exponentBound; omega, offered⟩

/-- The shortest decimal of a finite double rounds to it. -/
theorem toBits_shortest (tie : Tie) {bits : Nat} (finite : bits < infinityBits) :
    (shortest tie bits).toBits = bits := by
  rcases shortest_cases tie finite with ⟨rfl, shortest_eq⟩ | ⟨exponent, le, ge, offered⟩
  · rw [shortest_eq]
    decide +kernel
  · exact toBits_of_onGrid? finite le ge offered

theorem exponent_shortest_le (tie : Tie) {bits : Nat} (finite : bits < infinityBits) :
    (shortest tie bits).exponent ≤ exponentBound := by
  rcases shortest_cases tie finite with ⟨rfl, shortest_eq⟩ | ⟨exponent, le, ge, offered⟩
  · rw [shortest_eq]
    exact Int.natCast_nonneg _
  · rw [(contains_of_onGrid? offered).1]
    exact le

end Decimal
end FormulaFit
