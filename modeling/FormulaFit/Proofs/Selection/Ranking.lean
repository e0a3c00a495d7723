import FormulaFit.Proofs.Refine.Fitting
import FormulaFit.Proofs.Scalar.Nearest
import FormulaFit.Proofs.Selection.Winners

/-!
# Ranking by error

Selection by error alone scans the errors with the invalid ones replaced by slightly more than the
worst valid one.  The replacement is never below the worst valid error, but a great error absorbs
the gap, and then the two are equal; so an invalid candidate loses against a valid one as long as
one valid error is below the replacement or a valid candidate comes first.
-/

namespace FormulaFit
namespace Selection

section Extremes

theorem max_chooses (a b : Float) : Scalar.max a b = a ∨ Scalar.max a b = b := by
  rw [Scalar.max]
  split_ifs <;> simp

theorem min_chooses (a b : Float) : Scalar.min a b = a ∨ Scalar.min a b = b := by
  rw [Scalar.min]
  split_ifs <;> simp

theorem max_spec {a b : Float} (a_finite : a.isFinite = true) (b_finite : b.isFinite = true) :
    Double.units a ≤ Double.units (Scalar.max a b) ∧
      Double.units b ≤ Double.units (Scalar.max a b) := by
  have a_number := Double.isNaN_of_finite a_finite
  have b_number := Double.isNaN_of_finite b_finite
  have lt_iff := Double.lt_iff b_number a_number
  have max_eq : Scalar.max a b = if b < a then a else b := by
    change (if a.isNaN then b else if b.isNaN then a else if decide (b < a) then a else b) = _
    rw [a_number, b_number]
    simp
  rw [max_eq]
  split
  · rename_i lt
    exact ⟨Int.le_refl _, Int.le_of_lt (lt_iff.mp lt)⟩
  · rename_i not_lt
    exact ⟨Int.not_lt.mp fun lt => not_lt (lt_iff.mpr lt), Int.le_refl _⟩

theorem min_spec {a b : Float} (a_finite : a.isFinite = true) (b_finite : b.isFinite = true) :
    Double.units (Scalar.min a b) ≤ Double.units a ∧
      Double.units (Scalar.min a b) ≤ Double.units b := by
  have a_number := Double.isNaN_of_finite a_finite
  have b_number := Double.isNaN_of_finite b_finite
  have lt_iff := Double.lt_iff a_number b_number
  have min_eq : Scalar.min a b = if a < b then a else b := by
    change (if a.isNaN then b else if b.isNaN then a else if decide (a < b) then a else b) = _
    rw [a_number, b_number]
    simp
  rw [min_eq]
  split
  · rename_i lt
    exact ⟨Int.le_refl _, Int.le_of_lt (lt_iff.mp lt)⟩
  · rename_i not_lt
    exact ⟨Int.not_lt.mp fun lt => not_lt (lt_iff.mpr lt), Int.le_refl _⟩

variable {values : List Float}

theorem maximum_spec (nonempty : values ≠ []) (finite : ∀ v ∈ values, v.isFinite = true) :
    Scalar.maximum Scalar.negInf values ∈ values ∧
      ∀ v ∈ values, Double.units v ≤ Double.units (Scalar.maximum Scalar.negInf values) := by
  cases values with
  | nil => exact absurd rfl nonempty
  | cons first rest =>
      have start : Scalar.maximum Scalar.negInf (first :: rest) = rest.foldl Scalar.max first :=
        congrArg (rest.foldl Scalar.max)
          (Double.max_negInf_of_finite (finite first List.mem_cons_self))
      have largest := key_foldl_le (fun v => -Double.units v) max_chooses
        (fun a b a_finite b_finite =>
          (max_spec a_finite b_finite).imp Int.neg_le_neg Int.neg_le_neg) first finite
      rw [start]
      exact ⟨foldl_mem max_chooses first rest,
        fun v member => Int.neg_le_neg_iff.mp (largest v member)⟩

theorem minimum_spec (nonempty : values ≠ []) (finite : ∀ v ∈ values, v.isFinite = true) :
    Scalar.minimum Scalar.posInf values ∈ values ∧
      ∀ v ∈ values, Double.units (Scalar.minimum Scalar.posInf values) ≤ Double.units v := by
  cases values with
  | nil => exact absurd rfl nonempty
  | cons first rest =>
      have start : Scalar.minimum Scalar.posInf (first :: rest) = rest.foldl Scalar.min first :=
        congrArg (rest.foldl Scalar.min)
          (Double.min_posInf_of_finite (finite first List.mem_cons_self))
      rw [start]
      exact ⟨foldl_mem min_chooses first rest,
        key_foldl_le Double.units min_chooses (fun a b => min_spec) first finite⟩

end Extremes

section Fill

variable {errors : List Float}

/-- The worst valid error is one of them, and no valid one is above it. -/
theorem worstFinite_spec {e : Float} (member : e ∈ errors) (finite : e.isFinite = true) :
    worstFinite errors ∈ errors ∧ (worstFinite errors).isFinite = true ∧
      ∀ e ∈ errors, e.isFinite = true → Double.units e ≤ Double.units (worstFinite errors) := by
  have valid : ∀ v ∈ errors.filter fun e => Scalar.isFinite e, v.isFinite = true := fun v member =>
    (List.mem_filter.mp member).2
  have mem_valid {v : Float} (member : v ∈ errors) (finite : v.isFinite = true) :
      v ∈ errors.filter fun e => Scalar.isFinite e := List.mem_filter.mpr ⟨member, finite⟩
  obtain ⟨worst_valid, le⟩ := maximum_spec (List.ne_nil_of_mem (mem_valid member finite)) valid
  exact ⟨(List.mem_filter.mp worst_valid).1, valid _ worst_valid,
    fun v member finite => le v (mem_valid member finite)⟩

/-- What an invalid error counts as is a number not below any valid error. -/
theorem invalidFill_spec {e : Float} (member : e ∈ errors) (finite : e.isFinite = true) :
    (invalidFill errors).isNaN = false ∧
      ∀ e ∈ errors, e.isFinite = true → Double.units e ≤ Double.units (invalidFill errors) := by
  obtain ⟨-, worst_finite, le_worst⟩ := worstFinite_spec member finite
  have gap_finite : (invalidGap : Float).isFinite = true := by decide +kernel
  have gap_pos : 0 < Double.units (invalidGap : Float) :=
    (Double.lt_iff (a := 0) rfl (Double.isNaN_of_finite gap_finite)).mp (by decide +kernel)
  obtain ⟨number, worst_le⟩ := Double.units_le_units_add worst_finite gap_finite gap_pos
  have fill_eq : invalidFill errors = worstFinite errors + invalidGap := if_pos worst_finite
  rw [fill_eq]
  exact ⟨number, fun v member finite => Int.le_trans (le_worst v member finite) worst_le⟩

/-- The first of the valid errors that no valid error is below. -/
structure IsBestValid (errors : List Float) (i : Nat) (e : Float) : Prop where
  getElem?_eq : errors[i]? = some e
  finite : e.isFinite = true
  not_lt : ∀ e' ∈ errors, e'.isFinite = true → ¬e' < e
  lt : ∀ j < i, ∀ e', errors[j]? = some e' → e'.isFinite = true → e < e'

/-- An invalid error can be told from the valid ones: it is not the first error, or some valid error
is below what it counts as. -/
def InvalidLast (errors : List Float) : Prop :=
  (∃ e, errors[0]? = some e ∧ e.isFinite = true) ∨
    ∃ e ∈ errors, e.isFinite = true ∧ e < invalidFill errors

theorem isNaN_of_mem_fillInvalid (fill_number : (invalidFill errors).isNaN = false) :
    ∀ v ∈ fillInvalid errors, v.isNaN = false := by
  intro v member
  obtain ⟨e, -, rfl⟩ := List.mem_map.mp member
  by_cases finite : e.isFinite = true
  · rw [if_pos (show Scalar.isFinite e = true from finite)]
    exact Double.isNaN_of_finite finite
  · rw [if_neg (show ¬Scalar.isFinite e = true from finite)]
    exact fill_number

theorem getElem?_fillInvalid {i : Nat} {e : Float} (found : errors[i]? = some e) :
    (fillInvalid errors)[i]? = some (if e.isFinite then e else invalidFill errors) := by
  rw [fillInvalid, List.getElem?_map, found]
  rfl

theorem mem_fillInvalid {e : Float} (member : e ∈ errors) (finite : e.isFinite = true) :
    e ∈ fillInvalid errors := by
  refine List.mem_map.mpr ⟨e, member, if_pos finite⟩

end Fill

section Winner

variable {errors : List Float}

/-- The winner is valid if invalid errors can be told from the valid ones. -/
theorem finite_of_invalidLast {i : Nat} {v e : Float} (last : InvalidLast errors)
    (least : IsFirstLeast Double.units (fillInvalid errors) i v) (found : errors[i]? = some e) :
    e.isFinite = true := by
  by_contra invalid
  have filled := getElem?_fillInvalid found
  rw [if_neg invalid, least.getElem?_eq, Option.some_inj] at filled
  subst filled
  rcases last with ⟨first, first_eq, finite⟩ | ⟨e', member, finite, lt⟩
  · obtain ⟨fill_number, le_fill⟩ := invalidFill_spec (List.mem_of_getElem? first_eq) finite
    have i_pos : 0 < i := Nat.pos_of_ne_zero fun zero => by
      subst zero
      obtain rfl := Option.some.inj (first_eq.symm.trans found)
      exact invalid finite
    have first_filled := getElem?_fillInvalid first_eq
    rw [if_pos finite] at first_filled
    exact absurd (least.lt 0 i_pos first first_filled)
      (Int.not_lt.mpr (le_fill first (List.mem_of_getElem? first_eq) finite))
  · obtain ⟨fill_number, -⟩ := invalidFill_spec member finite
    have lt := (Double.lt_iff (Double.isNaN_of_finite finite) fill_number).mp lt
    exact absurd lt (Int.not_lt.mpr (least.le e' (mem_fillInvalid member finite)))

/-- The first of the least errors, with the invalid ones replaced, is the best valid one if and only
if invalid errors can be told from the valid ones. -/
theorem exists_isBestValid_iff {i : Nat} {v e : Float} (member : e ∈ errors)
    (finite : e.isFinite = true) (least : IsFirstLeast Double.units (fillInvalid errors) i v) :
    (∃ e, IsBestValid errors i e) ↔ InvalidLast errors := by
  obtain ⟨fill_number, -⟩ := invalidFill_spec member finite
  have i_lt : i < errors.length := by
    have inside := (List.getElem?_eq_some_iff.mp least.getElem?_eq).1
    rwa [fillInvalid, List.length_map] at inside
  have found : errors[i]? = some errors[i] := List.getElem?_eq_getElem i_lt
  have filled := getElem?_fillInvalid found
  constructor
  · rintro ⟨best, valid⟩
    obtain rfl := Option.some.inj (found.symm.trans valid.getElem?_eq)
    rw [if_pos valid.finite, least.getElem?_eq, Option.some_inj] at filled
    subst filled
    have first : errors[0]? = some errors[0] := List.getElem?_eq_getElem (Nat.zero_lt_of_lt i_lt)
    by_cases first_finite : errors[0].isFinite = true
    · exact .inl ⟨_, first, first_finite⟩
    · have i_pos : 0 < i := Nat.pos_of_ne_zero fun zero => by
        subst zero
        exact first_finite valid.finite
      have first_filled := getElem?_fillInvalid first
      rw [if_neg first_finite] at first_filled
      exact .inr ⟨_, List.getElem_mem i_lt, valid.finite,
        (Double.lt_iff (Double.isNaN_of_finite valid.finite) fill_number).mpr
          (least.lt 0 i_pos _ first_filled)⟩
  · intro last
    have valid := finite_of_invalidLast last least found
    have number := Double.isNaN_of_finite valid
    rw [if_pos valid, least.getElem?_eq, Option.some_inj] at filled
    subst filled
    refine ⟨_, found, valid, fun e' member finite lt => ?_, fun j j_lt e' e'_eq finite => ?_⟩
    · have lt := (Double.lt_iff (Double.isNaN_of_finite finite) number).mp lt
      exact absurd lt (Int.not_lt.mpr (least.le e' (mem_fillInvalid member finite)))
    · have e'_filled := getElem?_fillInvalid e'_eq
      rw [if_pos finite] at e'_filled
      exact (Double.lt_iff number (Double.isNaN_of_finite finite)).mpr
        (least.lt j j_lt e' e'_filled)

theorem beatsBelow_lt :
    BeatsBelow (Scalar.lt : Float → Float → Bool) Double.units fun v => v.isNaN = false :=
  fun _ _ a_number b_number => decide_eq_decide.mpr (Double.lt_iff a_number b_number)

theorem exists_select_minError {complexities : List Nat}
    (length_eq : errors.length = complexities.length) {e : Float} (member : e ∈ errors)
    (finite : e.isFinite = true) :
    ∃ i v, select .minError errors complexities = .ok i ∧
      IsFirstLeast Double.units (fillInvalid errors) i v := by
  obtain ⟨fill_number, -⟩ := invalidFill_spec member finite
  have numbers := isNaN_of_mem_fillInvalid fill_number
  have filled_ne : fillInvalid errors ≠ [] :=
    List.ne_nil_of_mem (mem_fillInvalid member finite)
  obtain ⟨v, least⟩ := isFirstLeast_firstBest beatsBelow_lt filled_ne numbers
  refine ⟨_, v, select_eq_ok length_eq (List.ne_nil_of_mem member) fun rci same => ?_, least⟩
  cases same

theorem errors_of_scored {candidates : List Candidate} {pairs : List (Float × Nat)}
    (scored : List.Forall₂ (fun c pair => Selection.scored c = .ok pair) candidates pairs) :
    candidates.map Candidate.error = pairs.map fun pair => some pair.1 := by
  induction scored with
  | nil => rfl
  | @cons c pair candidates pairs head _ ih =>
      rw [List.map_cons, List.map_cons, ih]
      refine congrArg (· :: _) ?_
      rw [Selection.scored] at head
      split at head
      · rename_i error complexity error_eq complexity_eq
        cases head
        exact error_eq
      · cases head

end Winner

end Selection

namespace Refinement

open Selection

/-- The recorded errors of candidates. -/
def recorded (candidates : List Candidate) : List Float := candidates.filterMap Candidate.error

theorem selectCandidate_of_refine {config : Config} {raw : List String} {data : Dataset}
    {r : Refinement} (refined : refine config raw data = .ok r) :
    selectCandidate config.criterion r.candidates = .ok r.selected ∧
      r.candidates[r.selected]? = some r.winner := by
  obtain ⟨_, -, refined⟩ := bind_eq_ok_iff.mp refined
  obtain ⟨⟨pool, summary⟩, -, refined⟩ := bind_eq_ok_iff.mp refined
  obtain ⟨⟨scored, summary'⟩, -, refined⟩ := bind_eq_ok_iff.mp refined
  obtain ⟨selected, selection, refined⟩ := bind_eq_ok_iff.mp refined
  simp only at refined
  split at refined
  · rename_i winner chosen
    cases refined
    exact ⟨selection, chosen⟩
  · cases refined

theorem isBestValid_winner_iff {config : Config} {raw : List String} {data : Dataset}
    {r : Refinement} (refined : refine config raw data = .ok r) (by_error : config.rci = none)
    {e : Float} (member : e ∈ recorded r.candidates) (finite : e.isFinite = true) :
    (∃ e, r.winner.error = some e ∧ IsBestValid (recorded r.candidates) r.selected e) ↔
      InvalidLast (recorded r.candidates) := by
  obtain ⟨selection, chosen⟩ := selectCandidate_of_refine refined
  obtain ⟨pairs, scored, selection⟩ := bind_eq_ok_iff.mp selection
  have errors_eq := errors_of_scored (mapM_eq_ok_iff.mp scored)
  have recorded_eq : recorded r.candidates = pairs.map Prod.fst := by
    have recorded_map :
        recorded r.candidates = (r.candidates.map Candidate.error).filterMap id := by
      rw [List.filterMap_map]
      rfl
    rw [recorded_map, errors_eq, List.filterMap_map]
    exact congrFun List.filterMap_eq_map pairs
  have criterion_eq : config.criterion = .minError := by rw [Config.criterion, by_error]
  rw [criterion_eq, ← recorded_eq] at selection
  have length_eq : (recorded r.candidates).length = (pairs.map Prod.snd).length := by
    rw [recorded_eq, List.length_map, List.length_map]
  obtain ⟨i, v, selected, least⟩ := exists_select_minError length_eq member finite
  obtain rfl := Except.ok.inj (selection.symm.trans selected)
  rw [← exists_isBestValid_iff member finite least]
  refine ⟨fun ⟨best, _, valid⟩ => ⟨best, valid⟩, fun ⟨best, valid⟩ => ⟨best, ?_, valid⟩⟩
  have entry := valid.getElem?_eq
  rw [recorded_eq, List.getElem?_map, Option.map_eq_some_iff] at entry
  obtain ⟨pair, pair_eq, rfl⟩ := entry
  have winner_error := congrArg (·[r.selected]?) errors_eq
  simp only [List.getElem?_map, chosen, pair_eq, Option.map_some, Option.some_inj] at winner_error
  exact winner_error

/-- By error alone the first of the least valid errors wins, in a selection and in a refinement,
exactly if the first error is valid or some valid one is below what an invalid error counts as. -/
theorem minError_valid_iff (errors : List Float) (some_valid : ∃ e ∈ errors, e.isFinite = true) :
    (∀ complexities : List Nat, errors.length = complexities.length →
      ∃ i, select .minError errors complexities = .ok i ∧
        ((∃ e, IsBestValid errors i e) ↔ InvalidLast errors)) ∧
    ∀ (config : Config) (raw : List String) (data : Dataset) (r : Refinement),
      refine config raw data = .ok r → config.rci = none → recorded r.candidates = errors →
        ((∃ e, r.winner.error = some e ∧ IsBestValid errors r.selected e) ↔
          InvalidLast errors) := by
  obtain ⟨e, member, finite⟩ := some_valid
  refine ⟨fun complexities length_eq => ?_,
    fun config raw data r refined by_error recorded_eq => ?_⟩
  · obtain ⟨i, v, selected, least⟩ := exists_select_minError length_eq member finite
    exact ⟨i, selected, exists_isBestValid_iff member finite least⟩
  · subst recorded_eq
    exact isBestValid_winner_iff refined by_error member finite

/-- The infinite error of steep predictions is told from that of the samples' own line, by a
selection and by a refinement. -/
theorem steepLine_valid :
    (0 : Float) ∈ [Scalar.posInf, 0] ∧ (0 : Float).isFinite = true ∧
      (∃ i, select .minError [Scalar.posInf, 0] [3, 3] = .ok i ∧
        ∃ e, IsBestValid [Scalar.posInf, 0] i e) ∧
      ∃ r, refine { randomState := some 1 } ["1e200*x_0", "2*x_0"] lineSamples = .ok r ∧
        recorded r.candidates = [Scalar.posInf, 0] ∧
        ∃ e, r.winner.error = some e ∧ IsBestValid [Scalar.posInf, 0] r.selected e := by
  have member : (0 : Float) ∈ [Scalar.posInf, 0] := List.mem_cons_of_mem _ List.mem_cons_self
  have finite : (0 : Float).isFinite = true := by decide +kernel
  have last : InvalidLast [Scalar.posInf, 0] := .inr ⟨0, member, finite, by decide +kernel⟩
  obtain ⟨selects, refines⟩ := minError_valid_iff [Scalar.posInf, 0] ⟨0, member, finite⟩
  refine ⟨member, finite, ?_, ?_⟩
  · obtain ⟨i, selected, best_iff⟩ := selects [3, 3] rfl
    exact ⟨i, selected, best_iff.mpr last⟩
  · have errors_eq :
        (refine { randomState := some 1 } ["1e200*x_0", "2*x_0"] lineSamples).toOption.map
          (fun r => recorded r.candidates) = some [Scalar.posInf, 0] := by decide +kernel
    obtain ⟨r, refined, recorded_eq⟩ := exists_of_map_toOption errors_eq
    exact ⟨r, refined, recorded_eq, (refines _ _ _ r refined rfl recorded_eq).mpr last⟩

/-- A great error absorbs the gap, so the invalid error before it wins, also in a refinement. -/
theorem absorbedGap_not_valid :
    ((invalidFill [Scalar.posInf, 1e20] : Float) = 1e20 ∧
      select .minError [Scalar.posInf, 1e20] [1, 1] = .ok 0 ∧
      ¬∃ e, IsBestValid [Scalar.posInf, 1e20] 0 e) ∧
    ∃ r, refine { randomState := some 1 } ["1e200*x_0", "1e10"] lineSamples = .ok r ∧
      r.winner.error = some Scalar.posInf ∧
      ∃ c ∈ r.candidates, ∃ e, c.error = some e ∧ e.isFinite = true := by
  refine ⟨⟨by decide +kernel, by decide +kernel, ?_⟩, ?_⟩
  · rintro ⟨e, best⟩
    have infinite : e = Scalar.posInf := (Option.some.inj best.getElem?_eq).symm
    have finite := best.finite
    rw [infinite] at finite
    exact absurd finite (by decide +kernel)
  · have errors_eq : (refine { randomState := some 1 } ["1e200*x_0", "1e10"]
        lineSamples).toOption.map (fun r => (r.winner.error,
          r.candidates.any fun c => c.error.any Float.isFinite)) =
            some (some Scalar.posInf, true) := by decide +kernel
    obtain ⟨r, refined, scored⟩ := exists_of_map_toOption errors_eq
    obtain ⟨winner_error, valid⟩ := Prod.mk.inj scored
    obtain ⟨c, member, finite⟩ := List.any_eq_true.mp valid
    obtain ⟨e, error_eq, finite⟩ := (Option.any_eq_true _ _).mp finite
    exact ⟨r, refined, winner_error, c, member, e, error_eq, finite⟩

end Refinement
end FormulaFit
