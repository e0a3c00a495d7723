import FormulaFit.Proofs.Selection.Normalization

/-!
# Selection in any order

What a candidate counts as in a selection, its error or its score, depends on the pool but not on
the order of the pool.  So a pool in another order has the same best value, and the first candidate
that attains it is selected; if only one does, it is selected in every order.
-/

namespace FormulaFit
namespace Selection

open Double

/-- Candidates by their errors and complexities. -/
abbrev Pool : Type := List (Float × UInt64)

namespace Pool

/-- The errors of the candidates. -/
def errors (pool : Pool) : List Float := pool.map Prod.fst

/-- The complexities of the candidates. -/
def complexities (pool : Pool) : List Nat := pool.map fun c => c.2.toNat

/-- The values by which a criterion compares the candidates: errors with the invalid ones replaced,
or scores. -/
def ranking (criterion : Criterion Float) (pool : Pool) : List Float :=
  match criterion with
  | .minError => fillInvalid pool.errors
  | .weighted rci => scores rci pool.errors pool.complexities

/-- The pool in another order. -/
def arranged (pool : Pool) (order : Equiv.Perm (Fin pool.length)) : Pool :=
  List.ofFn fun k => pool[order k]

/-- What the error of a candidate counts as. -/
def filled (pool : Pool) (c : Float × UInt64) : Float :=
  if Scalar.isFinite c.1 then c.1 else invalidFill pool.errors

/-- What a candidate of a pool counts as. -/
def merit (criterion : Criterion Float) (pool : Pool) (c : Float × UInt64) : Float :=
  match criterion with
  | .minError => pool.filled c
  | .weighted rci => score rci (place (fillInvalid pool.errors) (pool.filled c))
    (place (pool.complexities.map Scalar.ofNat) (Scalar.ofNat c.2.toNat))

variable {criterion : Criterion Float} {pool pool' : Pool} {c : Float × UInt64} {rci : Float}

theorem ranking_eq (criterion : Criterion Float) (pool : Pool) :
    pool.ranking criterion = pool.map (pool.merit criterion) := by
  have filled_eq : fillInvalid pool.errors = pool.map pool.filled := List.map_map
  cases criterion with
  | minError => exact filled_eq
  | weighted rci =>
      have places_eq : normalize (fillInvalid pool.errors) = pool.map fun c =>
          place (fillInvalid pool.errors) (pool.filled c) := by
        rw [normalize_eq]
        exact (congrArg _ filled_eq).trans List.map_map
      have places_eq' : normalize (pool.complexities.map Scalar.ofNat) = pool.map fun c =>
          place (pool.complexities.map Scalar.ofNat) (Scalar.ofNat c.2.toNat) := by
        rw [normalize_eq]
        exact (congrArg _ List.map_map).trans List.map_map
      rw [ranking, scores, places_eq, places_eq', List.zipWith_map, List.zipWith_self]
      rfl

/-- None of the finite errors is negative, and the weight of a criterion is one. -/
structure Admissible (criterion : Criterion Float) (pool : Pool) : Prop where
  nonneg : ∀ c ∈ pool, c.1.isFinite = true → 0 ≤ c.1
  weight : ∀ rci, criterion = .weighted rci → Config.isWeight rci = true

theorem Admissible.measured (admissible : Admissible criterion pool) : Measured pool.errors := by
  intro e member finite
  obtain ⟨c, is_candidate, rfl⟩ := List.mem_map.mp member
  have nonneg := admissible.nonneg c is_candidate finite
  rw [le_iff rfl (isNaN_of_finite finite), ← value_le_value_iff, value_zero] at nonneg
  exact nonneg

theorem amounts_complexities (pool : Pool) : Amounts (pool.complexities.map Scalar.ofNat) := by
  have each : ∀ v ∈ pool.complexities.map (Scalar.ofNat : Nat → Float),
      v.isFinite = true ∧ 0 ≤ value v := by
    intro v member
    obtain ⟨n, is_complexity, rfl⟩ := List.mem_map.mp member
    obtain ⟨c, -, rfl⟩ := List.mem_map.mp is_complexity
    obtain ⟨nearest, finite⟩ := nearest_ofNat c.2
    exact ⟨finite, nearest.nonneg (Nat.cast_nonneg _)⟩
  exact ⟨fun v member => (each v member).1, fun v member => (each v member).2⟩

theorem filled_mem (member : c ∈ pool) : pool.filled c ∈ fillInvalid pool.errors :=
  List.mem_map.mpr ⟨c.1, List.mem_map_of_mem member, rfl⟩

theorem complexity_mem (member : c ∈ pool) :
    (Scalar.ofNat c.2.toNat : Float) ∈ pool.complexities.map Scalar.ofNat :=
  List.mem_map_of_mem (List.mem_map.mpr ⟨c, member, rfl⟩)

theorem Admissible.isFinite_merit (admissible : Admissible criterion pool) (member : c ∈ pool) :
    (pool.merit criterion c).isFinite = true := by
  have amounts := admissible.measured.amounts
  cases criterion with
  | minError => exact amounts.finite _ (filled_mem member)
  | weighted rci =>
      exact isFinite_score (inUnit_of_isWeight (admissible.weight rci rfl))
        (amounts.inUnit_place (filled_mem member))
        (pool.amounts_complexities.inUnit_place (complexity_mem member))

/-- What a candidate counts as is the same in any order, to the last bit. -/
theorem Admissible.merit_perm (admissible : Admissible criterion pool) (perm : pool.Perm pool')
    (member : c ∈ pool) : pool.merit criterion c = pool'.merit criterion c := by
  have measured := admissible.measured
  have errors_perm : pool.errors.Perm pool'.errors := perm.map Prod.fst
  have filled_eq : pool.filled c = pool'.filled c := by
    rw [filled, filled, measured.invalidFill_perm errors_perm]
  cases criterion with
  | minError => exact filled_eq
  | weighted rci =>
      have amounts := measured.amounts
      have filled_perm := measured.fillInvalid_perm errors_perm
      have is_filled := filled_mem member
      have amounts' := pool.amounts_complexities
      have complexities_perm : (pool.complexities.map Scalar.ofNat).Perm
          (pool'.complexities.map (Scalar.ofNat : Nat → Float)) := (perm.map _).map _
      have is_complexity := complexity_mem member
      have error_eq := (amounts.inUnit_place is_filled).one_sub_congr
        ((amounts.perm filled_perm).inUnit_place (filled_perm.mem_iff.mp is_filled))
        (amounts.value_place_perm filled_perm is_filled)
      have complexity_eq := (amounts'.inUnit_place is_complexity).one_sub_congr
        ((amounts'.perm complexities_perm).inUnit_place
          (complexities_perm.mem_iff.mp is_complexity))
        (amounts'.value_place_perm complexities_perm is_complexity)
      rw [merit, merit, score, score, ← filled_eq, error_eq, complexity_eq]

theorem arranged_perm (pool : Pool) (order : Equiv.Perm (Fin pool.length)) :
    (pool.arranged order).Perm pool := by
  have perm := Equiv.Perm.ofFn_comp_perm order pool.get
  rwa [List.ofFn_get] at perm

/-- The criterion prefers one value to another. -/
def Prefers : Criterion Float → Float → Float → Prop
  | .minError, a, b => a < b
  | .weighted _, a, b => b < a

/-- What the criterion keeps least. -/
def key : Criterion Float → Float → Int
  | .minError, v => units v
  | .weighted _, v => -units v

theorem prefers_iff {a b : Float} (a_number : a.isNaN = false) (b_number : b.isNaN = false) :
    Prefers criterion a b ↔ key criterion a < key criterion b := by
  cases criterion with
  | minError => exact lt_iff a_number b_number
  | weighted rci => exact (lt_iff b_number a_number).trans Int.neg_lt_neg_iff.symm

/-- The candidate at an index is selected, with the value it counts as: no value of the pool is
preferred to it, and it is preferred to all earlier ones. -/
structure Chooses (criterion : Criterion Float) (pool : Pool) (i : Nat) (v : Float) : Prop where
  selected : select criterion pool.errors pool.complexities = .ok i
  getElem?_eq : (pool.ranking criterion)[i]? = some v
  not_preferred : ∀ w ∈ pool.ranking criterion, ¬Prefers criterion w v
  preferred : ∀ k < i, ∀ w, (pool.ranking criterion)[k]? = some w → Prefers criterion v w

theorem Admissible.isNaN_ranking (admissible : Admissible criterion pool) :
    ∀ v ∈ pool.ranking criterion, v.isNaN = false := by
  rw [ranking_eq]
  intro v member
  obtain ⟨c, is_candidate, rfl⟩ := List.mem_map.mp member
  exact isNaN_of_finite (admissible.isFinite_merit is_candidate)

theorem Admissible.exists_chooses (admissible : Admissible criterion pool) (nonempty : pool ≠ []) :
    ∃ i v, Chooses criterion pool i v := by
  have numbers := admissible.isNaN_ranking
  have ranked : pool.ranking criterion ≠ [] := by
    rw [ranking_eq]
    simpa using nonempty
  have scanned : ∃ v, IsFirstLeast (key criterion) (pool.ranking criterion)
      (winner criterion pool.errors pool.complexities) v := by
    cases criterion with
    | minError =>
        exact isFirstLeast_firstBest beatsBelow_lt ranked numbers
    | weighted rci =>
        have below : BeatsBelow (fun a b => Scalar.lt b a) (fun v => -units v)
            fun v => v.isNaN = false := fun a b a_number b_number =>
          decide_eq_decide.mpr ((lt_iff b_number a_number).trans Int.neg_lt_neg_iff.symm)
        exact isFirstLeast_firstBest below ranked numbers
  obtain ⟨v, least⟩ := scanned
  have number := numbers v (List.mem_of_getElem? least.getElem?_eq)
  have lengths : pool.errors.length = pool.complexities.length := by
    rw [errors, complexities, List.length_map, List.length_map]
  have scored : pool.errors ≠ [] := by simpa [errors] using nonempty
  refine ⟨_, v, select_eq_ok lengths scored admissible.weight, least.getElem?_eq,
    fun w member => ?_, fun k k_lt w found => ?_⟩
  · rw [prefers_iff (numbers w member) number]
    exact Int.not_lt.mpr (least.le w member)
  · rw [prefers_iff number (numbers w (List.mem_of_getElem? found))]
    exact least.lt k k_lt w found

/-- What stands at a place of the other order counts as it does in the pool. -/
theorem Admissible.getElem?_ranking_arranged (admissible : Admissible criterion pool)
    (order : Equiv.Perm (Fin pool.length)) (k : Fin pool.length) :
    ((pool.arranged order).ranking criterion)[k.val]? =
      (pool.ranking criterion)[(order k).val]? := by
  have entry : (pool.arranged order)[k.val]? = some pool[order k] := by
    rw [arranged, List.getElem?_ofFn, dif_pos k.isLt]
  have original : pool[(order k).val]? = some pool[order k] :=
    List.getElem?_eq_getElem (order k).isLt
  have merit_eq := admissible.merit_perm (pool.arranged_perm order).symm
    (List.mem_of_getElem? original)
  rw [ranking_eq, ranking_eq, List.getElem?_map, List.getElem?_map, entry, original,
    Option.map_some, Option.map_some, merit_eq]

theorem Admissible.arranged (admissible : Admissible criterion pool)
    (order : Equiv.Perm (Fin pool.length)) : Admissible criterion (pool.arranged order) where
  nonneg c member := admissible.nonneg c ((pool.arranged_perm order).mem_iff.mp member)
  weight := admissible.weight

theorem Chooses.lt_length {i : Nat} {v : Float} (chooses : Chooses criterion pool i v) :
    i < pool.length := by
  have inside := (List.getElem?_eq_some_iff.mp chooses.getElem?_eq).1
  rwa [ranking_eq, List.length_map] at inside

/-- In whatever order the candidates come, the first one that no other is preferred to is selected.
What it counts as is a number, and numerically the same in every order; if no other candidate counts
as that, it is the same candidate. -/
theorem select_any_order (criterion : Criterion Float) (pool : Pool)
    (admissible : Admissible criterion pool) (order : Equiv.Perm (Fin pool.length)) :
    (∀ v ∈ pool.ranking criterion, v.isNaN = false) ∧ (pool ≠ [] →
      ∃ (i j : Fin pool.length) (v w : Float), Chooses criterion pool i v ∧
        Chooses criterion (pool.arranged order) j w ∧ (w == v) = true ∧
        ((∀ (k : Fin pool.length) (u : Float), (pool.ranking criterion)[k.val]? = some u →
            (u == v) = true → k = i) → order j = i)) := by
  have numbers := admissible.isNaN_ranking
  refine ⟨numbers, fun nonempty => ?_⟩
  have length_eq : (pool.arranged order).length = pool.length := List.length_ofFn
  have nonempty' : pool.arranged order ≠ [] := by
    rw [← List.length_pos_iff, length_eq]
    exact List.length_pos_iff.mpr nonempty
  obtain ⟨i, v, chooses⟩ := admissible.exists_chooses nonempty
  obtain ⟨j, w, chooses'⟩ := (admissible.arranged order).exists_chooses nonempty'
  have i_lt := chooses.lt_length
  have j_lt : j < pool.length := length_eq ▸ chooses'.lt_length
  -- The second winner counts as much in the first order, and the first one in the second.
  have w_eq : (pool.ranking criterion)[(order ⟨j, j_lt⟩).val]? = some w :=
    (admissible.getElem?_ranking_arranged order ⟨j, j_lt⟩).symm.trans chooses'.getElem?_eq
  have v_eq : ((pool.arranged order).ranking criterion)[(order.symm ⟨i, i_lt⟩).val]? = some v := by
    rw [admissible.getElem?_ranking_arranged, Equiv.apply_symm_apply]
    exact chooses.getElem?_eq
  have v_number := numbers v (List.mem_of_getElem? chooses.getElem?_eq)
  have w_number := numbers w (List.mem_of_getElem? w_eq)
  have not_below := chooses.not_preferred w (List.mem_of_getElem? w_eq)
  have not_below' := chooses'.not_preferred v (List.mem_of_getElem? v_eq)
  rw [prefers_iff w_number v_number, Int.not_lt] at not_below
  rw [prefers_iff v_number w_number, Int.not_lt] at not_below'
  have same : (w == v) = true := by
    rw [beq_iff w_number v_number]
    have key_eq := Int.le_antisymm not_below' not_below
    cases criterion with
    | minError => exact key_eq
    | weighted rci => exact Int.neg_inj.mp key_eq
  exact ⟨⟨i, i_lt⟩, ⟨j, j_lt⟩, v, w, chooses, chooses', same,
    fun unique => unique (order ⟨j, j_lt⟩) w w_eq same⟩

/-- Two candidates with the least error, and one whose error is undefined. -/
def tiedPool : Pool := [(0 / 0, 1), (0, 3), (-0, 3)]

theorem tiedPool_any_order :
    Admissible (.weighted 0.25) tiedPool ∧ tiedPool ≠ [] ∧
      ∃ (i j : Fin tiedPool.length) (v w : Float), Chooses (.weighted 0.25) tiedPool i v ∧
        Chooses (.weighted 0.25) (tiedPool.arranged Fin.revPerm) j w ∧ (w == v) = true := by
  have admissible : Admissible (.weighted 0.25) tiedPool := by
    refine ⟨by decide +kernel, fun rci same => ?_⟩
    cases same
    decide +kernel
  have nonempty : tiedPool ≠ [] := by decide
  obtain ⟨i, j, v, w, chooses, chooses', same, -⟩ :=
    (select_any_order (.weighted 0.25) tiedPool admissible Fin.revPerm).2 nonempty
  exact ⟨admissible, nonempty, i, j, v, w, chooses, chooses', same⟩

end Pool

end Selection
end FormulaFit
