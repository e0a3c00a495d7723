import FormulaFit.Random.Source
import Mathlib.Tactic

/-!
# Drawn indices

Whatever words a source gives, an index lies in its range, and a sample has as many indices as asked
for, each below the length and none of them twice.
-/

namespace FormulaFit
namespace Random

variable {σ : Type} [WordSource σ]

theorem word_lt (wide : Bool) (source : σ) : (word wide source).1 < 2 ^ wordBits wide := by
  cases wide with
  | true => exact UInt64.toNat_lt _
  | false => exact UInt32.toNat_lt _

theorem word_mul_div_lt (wide : Bool) (source : σ) {size : Nat} (pos : 0 < size) :
    (word wide source).1 * size / 2 ^ wordBits wide < size := by
  rw [Nat.div_lt_iff_lt_mul (Nat.two_pow_pos _), Nat.mul_comm size]
  exact Nat.mul_lt_mul_of_pos_right (word_lt wide source) pos

theorem indexWithin_lt (wide : Bool) {size : Nat} (pos : 0 < size) (zone refusals : Nat)
    (source : σ) : (indexWithin wide size zone refusals source).1 < size := by
  induction refusals generalizing source with
  | zero => exact word_mul_div_lt wide source pos
  | succ refusals ih =>
      rw [indexWithin]
      dsimp only
      split
      · exact word_mul_div_lt wide source pos
      · exact ih _

theorem index_mem {low high : Nat} (ordered : low ≤ high) (source : σ) :
    low ≤ (index low high source).1 ∧ (index low high source).1 ≤ high := by
  have below := indexWithin_lt false (Nat.add_one_pos (high - low))
    ((high - low + 1) * 2 ^ (31 - (high - low + 1).log2) - 1) refusals source
  simp only [index]
  omega

/-- Distinct indices below a length, as many as asked for. -/
structure Draws (length amount : Nat) (chosen : List Nat) : Prop where
  length_eq : chosen.length = amount
  nodup : chosen.Nodup
  lt_length : ∀ i ∈ chosen, i < length

theorem Draws.extend {length amount : Nat} {chosen : List Nat} (draws : Draws length amount chosen)
    (source : σ) : Draws (length + 1) (amount + 1)
      ((if chosen.contains (index 0 length source).1 then length else (index 0 length source).1) ::
        chosen) where
  length_eq := by rw [List.length_cons, draws.length_eq]
  nodup := by
    refine List.nodup_cons.mpr ⟨?_, draws.nodup⟩
    split
    · exact fun present => Nat.lt_irrefl _ (draws.lt_length _ present)
    · rename_i absent
      exact fun present => absent (List.contains_iff_mem.mpr present)
  lt_length := by
    have drawn_le := (index_mem (Nat.zero_le length) source).2
    refine List.forall_mem_cons.mpr ⟨?_, fun i member =>
      Nat.lt_succ_of_lt (draws.lt_length i member)⟩
    split
    · exact Nat.lt_succ_self length
    · exact Nat.lt_succ_of_le drawn_le

theorem draws_extend {length amount : Nat} {chosen : List Nat} (draws : Draws length amount chosen)
    (growth : Nat) (source : σ) :
    Draws (length + growth) (amount + growth)
      (extend chosen (List.range' length growth) source).1 := by
  induction growth generalizing length amount chosen source with
  | zero => exact draws
  | succ growth ih =>
      have longer := ih (draws.extend source) (index 0 length source).2
      rw [List.range'_succ, extend]
      rwa [Nat.add_right_comm, Nat.add_right_comm amount] at longer

theorem draws_growing {length amount : Nat} (enough : amount ≤ length) (source : σ) :
    Draws length amount (growing length amount source).1 := by
  have start : Draws (length - amount) 0 [] := ⟨rfl, .nil, fun _ member => by cases member⟩
  have grown := draws_extend start amount source
  rw [Nat.sub_add_cancel enough, Nat.zero_add] at grown
  rw [growing]
  dsimp only
  split <;> exact grown

theorem exchanging_perm (length : Nat) (pool : Array Nat) (positions : List Nat) (source : σ) :
    (exchanging length pool positions source).1.Perm pool := by
  induction positions generalizing pool source with
  | nil => exact .refl pool
  | cons i positions ih =>
      rw [exchanging]
      refine (ih _ _).trans ?_
      rw [Array.swapIfInBounds_def]
      split
      · split
        · exact Array.swap_perm _ _
        · exact .refl pool
      · exact .refl pool

theorem draws_exchanging {length amount : Nat} (enough : amount ≤ length) (source : σ) :
    Draws length amount ((exchanging length (Array.range length) (List.range amount)
      source).1.toList.take amount) := by
  have exchanged :=
    (exchanging_perm length (Array.range length) (List.range amount) source).toList
  rw [Array.toList_range] at exchanged
  exact {
    length_eq := by
      rw [List.length_take, exchanged.length_eq, List.length_range, Nat.min_eq_left enough]
    nodup := (exchanged.nodup_iff.mpr List.nodup_range).sublist (List.take_sublist _ _)
    lt_length := fun i member =>
      List.mem_range.mp (exchanged.mem_iff.mp (List.mem_of_mem_take member)) }

/-- Some index is left as long as fewer are chosen than there are. -/
theorem leastFree_spec {length : Nat} {chosen : List Nat} (few : chosen.length < length) :
    leastFree length chosen ∉ chosen ∧ leastFree length chosen < length := by
  cases found : (List.range length).find? fun i => !chosen.contains i with
  | some i =>
      have free := List.find?_some found
      have below := List.mem_of_find?_eq_some found
      rw [leastFree, found, Option.getD_some]
      exact ⟨by simpa using free, List.mem_range.mp below⟩
  | none =>
      have all_chosen : List.range length ⊆ chosen := fun i member => by
        simpa using List.find?_eq_none.mp found i member
      have le := (List.nodup_range.subperm all_chosen).length_le
      rw [List.length_range] at le
      exact absurd few (Nat.not_lt.mpr le)

theorem fresh_spec {length : Nat} {chosen : List Nat} (few : chosen.length < length)
    (refusals : Nat) (source : σ) : (fresh length chosen refusals source).1 ∉ chosen ∧
      (fresh length chosen refusals source).1 < length := by
  induction refusals generalizing source with
  | zero => exact leastFree_spec few
  | succ refusals ih =>
      rw [fresh]
      dsimp only
      split
      · exact ih _
      · rename_i free
        exact ⟨by simpa using free, indexWithin_lt _ (Nat.zero_lt_of_lt few) _ _ source⟩

theorem draws_rejecting {length start amount : Nat} {chosen : List Nat}
    (draws : Draws length start chosen) (enough : start + amount ≤ length) (source : σ) :
    Draws length (start + amount) (rejecting length chosen amount source).1 := by
  induction amount generalizing start chosen source with
  | zero => exact draws
  | succ amount ih =>
      have few : chosen.length < length := by
        rw [draws.length_eq]
        omega
      obtain ⟨free, below⟩ := fresh_spec few refusals source
      have longer : Draws length (start + 1) ((fresh length chosen refusals source).1 :: chosen) := {
        length_eq := by rw [List.length_cons, draws.length_eq]
        nodup := List.nodup_cons.mpr ⟨free, draws.nodup⟩
        lt_length := List.forall_mem_cons.mpr ⟨below, draws.lt_length⟩ }
      rw [rejecting, Nat.add_comm amount, ← Nat.add_assoc]
      exact ih longer (by omega) _

/-- A sample is made of distinct indices below the length, if there are enough of them. -/
theorem draws_sample {length amount : Nat} (enough : amount ≤ length) (source : σ) :
    Draws length amount (sample length amount source).1 := by
  rw [sample]
  split
  · exact draws_growing enough source
  · exact draws_exchanging enough source
  · have start : Draws length 0 [] := ⟨rfl, .nil, fun _ member => by cases member⟩
    have drawn := draws_rejecting start ((Nat.zero_add amount).trans_le enough) source
    rwa [Nat.zero_add] at drawn

theorem sample_zero (length : Nat) (source : σ) : sample length 0 source = ([], source) := by
  rw [sample, choice]
  by_cases long : 2 ^ (32 : Nat) ≤ length
  · rw [if_pos long]
    rfl
  · rw [if_neg long]
    rfl

end Random
end FormulaFit
