import FormulaFit.Proofs.Optimize.Outcomes
import FormulaFit.Refine.Selection
import Mathlib.Order.Lattice

/-!
# The winner of a pool

The scan for the winner finds the first of the least values, whatever makes one value less than
another, and a pool whose candidates have both scores has a winner.
-/

namespace FormulaFit
namespace Selection

section Scan

variable {β ι : Type} [LinearOrder ι] {key : β → ι}

/-- The first of the values with the least key. -/
structure IsFirstLeast (key : β → ι) (values : List β) (i : Nat) (v : β) : Prop where
  getElem?_eq : values[i]? = some v
  le : ∀ w ∈ values, key v ≤ key w
  lt : ∀ j < i, ∀ w, values[j]? = some w → key v < key w

theorem IsFirstLeast.cons {a v : β} {values : List β} {i : Nat}
    (least : IsFirstLeast key values i v) (lt : key v < key a) :
    IsFirstLeast key (a :: values) (i + 1) v where
  getElem?_eq := least.getElem?_eq
  le := List.forall_mem_cons.mpr ⟨lt.le, least.le⟩
  lt j j_lt w w_eq := by
    cases j with
    | zero =>
        cases w_eq
        exact lt
    | succ j => exact least.lt j (Nat.lt_of_succ_lt_succ j_lt) w w_eq

theorem isFirstLeast_zero {a : β} {values : List β} (le : ∀ w ∈ values, key a ≤ key w) :
    IsFirstLeast key (a :: values) 0 a where
  getElem?_eq := rfl
  le := List.forall_mem_cons.mpr ⟨le_rfl, le⟩
  lt j j_lt := absurd j_lt (Nat.not_lt_zero j)

/-- One value beats another if its key is lower, as far as values with a property go. -/
def BeatsBelow (beats : β → β → Bool) (key : β → ι) (property : β → Prop) : Prop :=
  ∀ a b, property a → property b → beats a b = decide (key a < key b)

variable {beats : β → β → Bool} {property : β → Prop}

/-- The best value stays, or the first of the least values takes its place. -/
theorem foldl_better (below : BeatsBelow beats key property) (best : β × Nat)
    (best_holds : property best.1) {values : List β} (holds : ∀ w ∈ values, property w)
    (position : Nat) :
    ((values.zipIdx position).foldl (better beats) best = best ∧
        ∀ w ∈ values, key best.1 ≤ key w) ∨
      ∃ i v, (values.zipIdx position).foldl (better beats) best = (v, position + i) ∧
        key v < key best.1 ∧ IsFirstLeast key values i v := by
  induction values generalizing best position with
  | nil => exact .inl ⟨rfl, by simp⟩
  | cons a values ih =>
      obtain ⟨a_holds, holds⟩ := List.forall_mem_cons.mp holds
      rw [List.zipIdx_cons, List.foldl_cons, better, below _ _ a_holds best_holds]
      by_cases lower : key a < key best.1
      · rw [decide_eq_true lower, if_pos rfl]
        rcases ih (a, position) a_holds holds (position + 1) with
          ⟨same, le⟩ | ⟨i, v, found, lt, least⟩
        · exact .inr ⟨0, a, same, lower, isFirstLeast_zero le⟩
        · rw [Nat.add_right_comm] at found
          exact .inr ⟨i + 1, v, found, lt.trans lower, least.cons lt⟩
      · rw [decide_eq_false lower, if_neg Bool.false_ne_true]
        have a_ge := not_lt.mp lower
        rcases ih best best_holds holds (position + 1) with ⟨same, le⟩ | ⟨i, v, found, lt, least⟩
        · exact .inl ⟨same, List.forall_mem_cons.mpr ⟨a_ge, le⟩⟩
        · rw [Nat.add_right_comm] at found
          exact .inr ⟨i + 1, v, found, lt, least.cons (lt.trans_le a_ge)⟩

theorem isFirstLeast_firstBest (below : BeatsBelow beats key property) {values : List β}
    (nonempty : values ≠ []) (holds : ∀ w ∈ values, property w) :
    ∃ v, IsFirstLeast key values (firstBest beats values) v := by
  cases values with
  | nil => exact absurd rfl nonempty
  | cons a values =>
      obtain ⟨a_holds, holds⟩ := List.forall_mem_cons.mp holds
      have scanned : firstBest beats (a :: values) =
          ((values.zipIdx 1).foldl (better beats) (a, 0)).2 := rfl
      rw [scanned]
      rcases foldl_better below (a, 0) a_holds holds 1 with
        ⟨same, le⟩ | ⟨i, v, found, lt, least⟩
      · rw [same]
        exact ⟨a, isFirstLeast_zero le⟩
      · rw [found, Nat.add_comm]
        exact ⟨v, least.cons lt⟩

end Scan

section Extreme

variable {β ι : Type} [Preorder ι] {choose : β → β → β} {property : β → Prop}

omit [Preorder ι] in
theorem foldl_mem (chooses : ∀ a b, choose a b = a ∨ choose a b = b) (first : β) (rest : List β) :
    rest.foldl choose first ∈ first :: rest := by
  rcases foldl_eq_start_or_mem id (fun a b => (chooses a b).symm) first rest with
    same | ⟨next, member, taken⟩
  · exact List.mem_cons.mpr (.inl same)
  · exact taken ▸ List.mem_cons_of_mem first member

/-- A scan that keeps one of two values, neither of them with a lesser key, ends at a value with the
least key. -/
theorem key_foldl_le (key : β → ι) (chooses : ∀ a b, choose a b = a ∨ choose a b = b)
    (least : ∀ a b, property a → property b →
      key (choose a b) ≤ key a ∧ key (choose a b) ≤ key b)
    (first : β) {rest : List β} (holds : ∀ v ∈ first :: rest, property v) :
    ∀ v ∈ first :: rest, key (rest.foldl choose first) ≤ key v := by
  induction rest generalizing first with
  | nil => simp
  | cons v rest ih =>
      obtain ⟨first_holds, holds⟩ := List.forall_mem_cons.mp holds
      obtain ⟨v_holds, rest_holds⟩ := List.forall_mem_cons.mp holds
      obtain ⟨le_first, le_v⟩ := least first v first_holds v_holds
      have chosen_holds : property (choose first v) := by
        rcases chooses first v with same | same <;> rwa [same]
      obtain ⟨le_chosen, le_rest⟩ := List.forall_mem_cons.mp
        (ih (choose first v) (List.forall_mem_cons.mpr ⟨chosen_holds, rest_holds⟩))
      rw [List.foldl_cons]
      exact List.forall_mem_cons.mpr ⟨le_chosen.trans le_first,
        List.forall_mem_cons.mpr ⟨le_chosen.trans le_v, le_rest⟩⟩

end Extreme

section Winner

theorem fillInvalid_eq_self {α : Type} [Scalar α] {errors : List α}
    (finite : ∀ e ∈ errors, Scalar.isFinite e = true) : fillInvalid errors = errors :=
  (List.map_congr_left fun e member => if_pos (finite e member)).trans (List.map_id _)

theorem firstBest_lt {β : Type} (beats : β → β → Bool) {values : List β} (nonempty : values ≠ []) :
    firstBest beats values < values.length := by
  cases values with
  | nil => exact absurd rfl nonempty
  | cons v values =>
      have chooses (best next : β × Nat) :
          better beats best next = best ∨ better beats best next = next := by
        rw [better]
        split <;> simp
      have member := foldl_mem chooses (v, 0) (values.zipIdx 1)
      rw [← List.zipIdx_cons, List.mem_zipIdx_iff_getElem?] at member
      exact (List.getElem?_eq_some_iff.mp member).1

theorem winner_lt (criterion : Criterion Float) {errors : List Float} {complexities : List Nat}
    (length_eq : errors.length = complexities.length) (nonempty : errors ≠ []) :
    winner criterion errors complexities < errors.length := by
  have errors_pos := List.length_pos_iff.mpr nonempty
  cases criterion with
  | minError =>
      have length_fill : (fillInvalid errors).length = errors.length := by simp [fillInvalid]
      have filled : fillInvalid errors ≠ [] := List.length_pos_iff.mp (length_fill ▸ errors_pos)
      exact length_fill ▸ firstBest_lt Scalar.lt filled
  | weighted rci =>
      have length_scores : (scores rci errors complexities).length = errors.length := by
        simp [scores, normalize, fillInvalid, length_eq]
      have scored : scores rci errors complexities ≠ [] :=
        List.length_pos_iff.mp (length_scores ▸ errors_pos)
      exact length_scores ▸ firstBest_lt (fun a b => Scalar.lt b a) scored

theorem select_eq_ok {criterion : Criterion Float} {errors : List Float} {complexities : List Nat}
    (length_eq : errors.length = complexities.length) (nonempty : errors ≠ [])
    (weighs : ∀ rci, criterion = .weighted rci → Config.isWeight rci = true) :
    select criterion errors complexities = .ok (winner criterion errors complexities) := by
  have occupied : errors.isEmpty = false := by simpa using nonempty
  rw [select]
  simp only [length_eq, occupied, ne_eq, not_true_eq_false, if_false]
  cases criterion with
  | minError => rfl
  | weighted rci =>
      simp only [weighs rci rfl]
      rfl

end Winner

end Selection
end FormulaFit
