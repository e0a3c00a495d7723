import FormulaFit.Proofs.Refine.Scoring
import FormulaFit.Proofs.Refine.Usability
import FormulaFit.Proofs.Selection.Normalization

/-!
# What a refinement asks for

Offsets are drawn between bounds whose distance has to be finite, and the bytes of a history have to
be addressable.  An accepted configuration gives finite bounds in order, but neither their distance
nor the size of the history is checked: the distance is finite exactly for scales below `2 ^ 1023`,
and there is room exactly up to a greatest size.  A refinement of formulas whose coefficients can be
counted fails exactly if it asks for something that cannot be had.
-/

namespace FormulaFit

namespace Double

variable {s v : Float}

theorem isFinite_neg (finite : v.isFinite = true) : (-v).isFinite = true := by
  obtain ⟨number, value_eq⟩ := neg_spec finite
  obtain ⟨above, below⟩ := (isFinite_iff_value (isNaN_of_finite finite)).mp finite
  rw [isFinite_iff_value number, value_eq]
  exact ⟨neg_lt_neg below, neg_lt.mp above⟩

theorem value_posInf : value Scalar.posInf = 2 ^ (1024 : ℤ) :=
  value_eq_zpow 2098 (by decide +kernel)

/-- The least double whose double is infinite, `2 ^ 1023`. -/
def halfRange : Float := Float.ofBits 0x7fe0000000000000

theorem lt_halfRange_iff (finite : s.isFinite = true) :
    s < halfRange ↔ value s < 2 ^ (1023 : ℤ) := by
  have value_eq : value halfRange = 2 ^ (1023 : ℤ) := value_eq_zpow 2097 (by decide +kernel)
  rw [lt_iff (isNaN_of_finite finite) (by decide +kernel), ← value_lt_value_iff, value_eq]

theorem isFinite_twice_iff (finite : s.isFinite = true) (nonneg : 0 ≤ value s)
    (nearest : Nearest (2 * value s) v) : v.isFinite = true ↔ s < halfRange := by
  have twice (k : ℤ) : (2 ^ (k + 1) : ℚ) = 2 * 2 ^ k := by rw [zpow_add_one₀ two_ne_zero, mul_comm]
  have infinity_eq : (2 ^ (1024 : ℤ) : ℚ) = 2 * 2 ^ (1023 : ℤ) := twice 1023
  have greatest_eq : (2 ^ (971 : ℤ) : ℚ) = 2 * 2 ^ (970 : ℤ) := twice 970
  rw [lt_halfRange_iff finite]
  constructor
  · intro result_finite
    by_contra beyond
    rw [not_lt] at beyond
    have infinity_le : value Scalar.posInf ≤ 2 * value s := by
      rw [value_posInf, infinity_eq]
      linarith
    have bounds := (isFinite_iff_value nearest.number).mp result_finite
    have infinite := nearest.le_value (by decide +kernel) infinity_le
    rw [value_posInf] at infinite
    exact absurd bounds.2 (not_lt.mpr infinite)
  · intro below
    have le := value_le_of_lt_two_pow finite (show (-1074 : ℤ) ≤ 970 by decide) below
    have twice_le : 2 * value s ≤ value Selection.greatest := by
      rw [Selection.value_greatest, greatest_eq]
      linarith
    have zero_le : value 0 ≤ 2 * value s := by
      rw [value_zero]
      linarith
    exact nearest.isFinite (show (0 : Float).isFinite = true from rfl)
      (show Selection.greatest.isFinite = true by decide +kernel) zero_le twice_le

theorem nonneg_of_le (finite : s.isFinite = true) (le : 0 ≤ s) : 0 ≤ value s := by
  rw [← value_zero, value_le_value_iff, ← le_iff rfl (isNaN_of_finite finite)]
  exact le

theorem pos_of_lt (finite : s.isFinite = true) (lt : 0 < s) : 0 < value s := by
  rw [← value_zero, value_lt_value_iff, ← lt_iff rfl (isNaN_of_finite finite)]
  exact lt

theorem isFinite_two_mul_iff (finite : s.isFinite = true) (le : 0 ≤ s) :
    (2 * s).isFinite = true ↔ s < halfRange := by
  have value_two : value 2 = 2 := by
    have units_eq : units 2 = 2 * 2 ^ 1074 := by decide +kernel
    rw [value, units_eq, Int.cast_mul, Int.cast_pow]
    exact mul_div_cancel_right₀ _ (by positivity)
  have nearest := nearest_mul (show (2 : Float).isFinite = true from rfl) finite
  rw [value_two] at nearest
  exact isFinite_twice_iff finite (nonneg_of_le finite le) nearest

/-- The bounds around zero are in order, and their distance is finite exactly if they lie below
`2 ^ 1023`. -/
theorem symmetric_spec (finite : s.isFinite = true) (lt : 0 < s) :
    -s < s ∧ ((s - -s).isFinite = true ↔ s < halfRange) := by
  obtain ⟨number, value_eq⟩ := neg_spec finite
  have pos := pos_of_lt finite lt
  have nearest := nearest_sub finite (isFinite_neg finite)
  rw [value_eq, sub_neg_eq_add, ← two_mul] at nearest
  refine ⟨?_, isFinite_twice_iff finite pos.le nearest⟩
  rw [lt_iff number (isNaN_of_finite finite), ← value_lt_value_iff, value_eq]
  exact neg_lt_self pos

end Double

namespace Expr

section Draws

/-- `perturb` with any way to draw between two bounds. -/
def perturbBy {m : Type → Type} [Monad m] (draw : Float → Float → m Float) (scale : Float)
    (constants : List Float) : List Float → m (List Float)
  | [] => return []
  | v :: vs => do
    let offset : Float ← if isRepeated constants v && 0 < scale then draw (-scale) scale else pure 0
    let values ← perturbBy draw scale constants vs
    return (v + offset) :: values

variable {σ : Type} [WordSource σ]

/-- A draw whose bounds are noted. -/
def notedDraw (low high : Float) : StateM (σ × List (Float × Float)) Float :=
  fun (source, noted) =>
    let (offset, source) := Random.uniform low high source
    (offset, source, noted ++ [(low, high)])

/-- The bounds between which offsets of constants are drawn. -/
def ranges (scale : Float) (constants vs : List Float) : List (Float × Float) :=
  (vs.filter fun v => isRepeated constants v && 0 < scale).map fun _ => (-scale, scale)

theorem ranges_cons (scale : Float) (constants : List Float) (v : Float) (vs : List Float) :
    ranges scale constants (v :: vs) =
      if isRepeated constants v && 0 < scale then (-scale, scale) :: ranges scale constants vs
      else ranges scale constants vs := by
  rw [ranges, List.filter_cons, apply_ite (List.map _), List.map_cons]
  rfl

theorem perturbBy_notedDraw (scale : Float) (constants vs : List Float) (source : σ)
    (noted : List (Float × Float)) :
    perturbBy notedDraw scale constants vs (source, noted) =
      ((perturb scale constants vs source).1, (perturb scale constants vs source).2,
        noted ++ ranges scale constants vs) := by
  induction vs generalizing source noted with
  | nil => exact congrArg (fun noted => ([], source, noted)) (List.append_nil noted).symm
  | cons v vs ih =>
      rw [perturbBy, perturb, ranges_cons]
      split
      · rw [List.append_cons]
        change (_ :: (perturbBy notedDraw scale constants vs _).1,
          (perturbBy notedDraw scale constants vs _).2) = _
        rw [ih]
        rfl
      · change (_ :: (perturbBy notedDraw scale constants vs _).1,
          (perturbBy notedDraw scale constants vs _).2) = _
        rw [ih]

/-- The bounds that are noted when the constants of a formula are lifted. -/
def drawnRanges (scale : Float) (e : Expr Float) (source : σ) : List (Float × Float) :=
  let constants := e.liftable.map Prod.snd
  (perturbBy notedDraw scale constants constants (source, [])).2.2

theorem drawnRanges_eq (scale : Float) (e : Expr Float) (source : σ) :
    e.drawnRanges scale source =
      ranges scale (e.liftable.map Prod.snd) (e.liftable.map Prod.snd) := by
  rw [drawnRanges, perturbBy_notedDraw]
  rfl

/-- The formula has constants that are moved apart. -/
def IsPerturbed (scale : Float) (e : Expr Float) : Prop :=
  0 < scale ∧ ∃ v ∈ e.liftable.map Prod.snd, isRepeated (e.liftable.map Prod.snd) v = true

theorem mem_drawnRanges_iff {scale : Float} {e : Expr Float} {source : σ} {low high : Float} :
    (low, high) ∈ e.drawnRanges scale source ↔
      (low = -scale ∧ high = scale) ∧ e.IsPerturbed scale := by
  simp only [drawnRanges_eq, ranges, List.mem_map, List.mem_filter, Bool.and_eq_true,
    decide_eq_true_eq, Prod.mk.injEq, IsPerturbed]
  constructor
  · rintro ⟨v, ⟨member, repeated, positive⟩, low_eq, high_eq⟩
    exact ⟨⟨low_eq.symm, high_eq.symm⟩, positive, v, member, repeated⟩
  · rintro ⟨⟨low_eq, high_eq⟩, positive, v, member, repeated⟩
    exact ⟨v, ⟨member, repeated, positive⟩, low_eq.symm, high_eq.symm⟩

theorem canLift_iff {scale : Float} {e : Expr Float} :
    e.canLift scale = true ↔
      (e.IsPerturbed scale → Random.isDrawable (-scale) scale = true) := by
  rw [canLift, canPerturb, Bool.or_eq_true, Bool.not_eq_true', ← Bool.not_eq_true, List.any_eq_true,
    ← imp_iff_not_or, IsPerturbed]
  simp only [Bool.and_eq_true, decide_eq_true_eq, ← exists_and_left, and_left_comm, and_comm]

end Draws

end Expr

/-- Something that an optimization asks for. -/
inductive Request where
  /-- A draw between two bounds. -/
  | offset (low high : Float)
  /-- Room of a number of bytes. -/
  | room (bytes : Nat)
deriving DecidableEq, Repr

/-- The request can be met: the draw is possible, and the bytes are addressable. -/
def Request.Met : Request → Prop
  | offset low high => Random.isDrawable low high = true
  | room bytes => bytes ≤ 2 ^ 63 - 1

/-- There is no draw between bounds whose distance is infinite. -/
theorem Request.Met.isFinite_distance {low high : Float} (met : (offset low high).Met) :
    (high - low).isFinite = true := Double.isFinite_of_div met

namespace Finetune

/-- The bytes of the history that the settings ask for; a curvature pair takes 56. -/
def Settings.historyBytes (settings : Settings) : Nat := settings.lbfgs.historySize * 56

theorem historyBytes_le_iff {settings : Settings} :
    settings.historyBytes ≤ 2 ^ 63 - 1 ↔ settings.lbfgs.hasRoom = true := by
  rw [Settings.historyBytes, Lbfgs.Settings.hasRoom, Lbfgs.historyLimit, decide_eq_true_iff,
    Nat.le_div_iff_mul_le (by decide)]

/-- What an optimization of a formula asks for: the draws of its offsets when its constants are
lifted, and room for the history when there is a program to run. -/
inductive Requests {σ : Type} [WordSource σ] (settings : Settings) (e : Expr Float) (source : σ) :
    Request → Prop where
  | offset (lifts : Lifts e) {low high : Float}
      (drawn : (low, high) ∈ e.drawnRanges settings.perturbationScale source) :
      Requests settings e source (.offset low high)
  | room (runs : Runs settings e) : Requests settings e source (.room settings.historyBytes)

/-- The settings are affordable for a formula if everything that its optimization asks for can be
had. -/
theorem affordable_iff_met {σ : Type} [WordSource σ] {settings : Settings} {e : Expr Float}
    (source : σ) :
    Affordable settings e ↔ ∀ request, Requests settings e source request → request.Met := by
  constructor
  · rintro affordable _ (⟨lifts, drawn⟩ | runs)
    · obtain ⟨⟨rfl, rfl⟩, perturbed⟩ := Expr.mem_drawnRanges_iff.mp drawn
      exact Expr.canLift_iff.mp (affordable.drawable lifts) perturbed
    · exact historyBytes_le_iff.mpr (affordable.room runs)
  · intro met
    refine ⟨fun lifts => Expr.canLift_iff.mpr fun perturbed => ?_, fun runs => ?_⟩
    · exact met _ (.offset lifts (Expr.mem_drawnRanges_iff.mpr ⟨⟨rfl, rfl⟩, perturbed⟩))
    · exact historyBytes_le_iff.mp (met _ (.room runs))

end Finetune

namespace Refinement

variable {config : Config} {raw : List String} {data : Dataset}

/-- What a refinement asks for: what the optimizations of its candidates do, if there are any. -/
def Requests (config : Config) (raw : List String) (data : Dataset) (request : Request) : Prop :=
  isTuning config data = true ∧ ∃ w ∈ repaired config 0 raw,
    Finetune.Requests (config.finetuneSettings data.featureCount) w.sanitized
      (generator (config.randomState.getD 0) w.candidate.source) request

theorem affordable_iff_requests_met : Affordable config raw data ↔
    ∀ request, Requests config raw data request → request.Met := by
  constructor
  · rintro affordable request ⟨tuning, w, member, requests⟩
    exact (Finetune.affordable_iff_met _).mp (affordable tuning w member) request requests
  · intro met tuning w member
    exact (Finetune.affordable_iff_met _).mpr fun request requests =>
      met request ⟨tuning, w, member, requests⟩

theorem affordable_of_refine (accepted : config.validate = .ok ()) (countable : Countable raw)
    {r : Refinement} (refined : refine config raw data = .ok r) : Affordable config raw data := by
  obtain ⟨finite, -⟩ := Config.of_validate accepted
  obtain ⟨pool, -, staged, -, -⟩ := exists_scores_of_refine refined
  intro tuning w member
  obtain ⟨after, -, optimized⟩ := exists_mem_of_forall₂ staged.flip member
  change Staged config data w after at optimized
  rw [Staged, if_pos tuning] at optimized
  obtain ⟨budget, optimized⟩ := optimized
  obtain ⟨outcome, finished, -⟩ := bind_eq_ok_iff.mp optimized
  have determined : w.sanitized.Determined := by
    obtain ⟨i, text, s, found, fixed, rfl⟩ := mem_repaired_iff.mp member
    exact determined_of_repair finite (countable text (List.mem_of_getElem? found)) fixed
  let settings := config.finetuneSettings data.featureCount
  have finite_placeholder : settings.sanitize.placeholder.isFinite = true := finite
  exact (Finetune.exists_finetune_iff determined.valid (determined.param_free _)
    finite_placeholder _ _).mp ⟨outcome, finished⟩

/-- A refinement with an accepted configuration asks for draws between finite bounds in order, and
for addressable room unless the history is too long.  The distance of the bounds, and twice the
scale, are finite exactly for scales below `2 ^ 1023`, and only there is a draw possible.  If
coefficients can be counted, there is a result exactly if all that is asked for can be had. -/
theorem refine_requests (accepted : config.validate = .ok ()) (raw : List String)
    (data : Dataset) :
    (∀ low high, Requests config raw data (.offset low high) →
      low = -config.perturbationScale ∧ high = config.perturbationScale ∧
        low.isFinite = true ∧ high.isFinite = true ∧ low < high ∧
        ((high - low).isFinite = true ↔ config.perturbationScale < Double.halfRange) ∧
        ((2 * config.perturbationScale).isFinite = true ↔
          config.perturbationScale < Double.halfRange) ∧
        ((Request.offset low high).Met → config.perturbationScale < Double.halfRange)) ∧
    (∀ bytes, Requests config raw data (.room bytes) →
      bytes = config.historySize.toNat * 56 ∧
        (bytes ≤ 2 ^ 63 - 1 ↔ config.historySize.toNat ≤ Lbfgs.historyLimit)) ∧
    (Countable raw → ((∃ r, refine config raw data = .ok r) ↔
      ∀ request, Requests config raw data request → request.Met)) := by
  refine ⟨?_, ?_, fun countable => ?_⟩
  · rintro low high ⟨-, w, -, ⟨-, drawn⟩⟩
    obtain ⟨⟨rfl, rfl⟩, positive, -⟩ := Expr.mem_drawnRanges_iff.mp drawn
    obtain ⟨finite, nonneg⟩ := (Config.checked_of_validate accepted).perturbationScale
    obtain ⟨lt, distance⟩ := Double.symmetric_spec finite positive
    exact ⟨rfl, rfl, Double.isFinite_neg finite, finite, lt, distance,
      Double.isFinite_two_mul_iff finite nonneg, fun met => distance.mp met.isFinite_distance⟩
  · rintro bytes ⟨-, w, -, ⟨⟩⟩
    exact ⟨rfl, Finetune.historyBytes_le_iff.trans decide_eq_true_iff⟩
  · rw [← affordable_iff_requests_met]
    constructor
    · rintro ⟨r, refined⟩
      exact affordable_of_refine accepted countable refined
    · intro affordable
      obtain ⟨r, refined, -⟩ := yields_refine_of_affordable accepted countable affordable
      exact ⟨r, refined⟩

theorem requests_of_repair {text : String} {s : Expr Float} {request : Request}
    (tuning : isTuning config data = true) (fixed : repair config text = .ok s)
    (requests : Finetune.Requests (config.finetuneSettings data.featureCount) s
      (generator (config.randomState.getD 0) 0) request) :
    Requests config [text] data request :=
  ⟨tuning, _, mem_repaired_iff.mpr ⟨0, text, s, rfl, fixed, rfl⟩, requests⟩

/-- The line `2.0 + 2.0*x_0`, whose constants are equal. -/
def doubledLine : Expr Float :=
  ⟨#[.const 2, .const 2, .var 0, .nary .mul [1, 2], .nary .add [0, 3]], 4⟩

theorem doubledLine_lifts : Finetune.Lifts doubledLine := ⟨by decide +kernel, by decide +kernel⟩

theorem doubledLine_isPerturbed {scale : Float} (positive : 0 < scale) :
    doubledLine.IsPerturbed scale := ⟨positive, List.any_eq_true.mp (by decide +kernel)⟩

theorem doubledLine_requests :
    oneStep.validate = .ok () ∧
      Requests oneStep ["2.0*x_0 + 2.0"] lineSamples (.offset (-1e-5) 1e-5) ∧
      (1e-5 - -1e-5 : Float).isFinite = true ∧
      ∃ r, refine oneStep ["2.0*x_0 + 2.0"] lineSamples = .ok r := by
  have accepted : oneStep.validate = .ok () := by decide +kernel
  have parsed : Formula.parse "2.0*x_0 + 2.0" = .ok
      ⟨#[.const 2, .var 0, .nary .mul [0, 1], .const 2, .nary .add [2, 3]], 4⟩ := by decide +kernel
  have countable : Countable ["2.0*x_0 + 2.0"] := by
    intro text is_text e read reaches
    obtain rfl := List.mem_singleton.mp is_text
    obtain rfl := Except.ok.inj (parsed.symm.trans read)
    simpa using reaches.mem
  have requests : Requests oneStep ["2.0*x_0 + 2.0"] lineSamples (.offset (-1e-5) 1e-5) :=
    requests_of_repair (s := doubledLine) (by decide +kernel) (by decide +kernel)
      (.offset doubledLine_lifts (Expr.mem_drawnRanges_iff.mpr
        ⟨⟨rfl, rfl⟩, doubledLine_isPerturbed (by decide +kernel)⟩))
  have affordable : Affordable oneStep ["2.0*x_0 + 2.0"] lineSamples := fun _ _ _ =>
    Finetune.affordable_of_settings (by decide +kernel) (by decide +kernel)
  obtain ⟨draws, -, succeeds⟩ := refine_requests accepted ["2.0*x_0 + 2.0"] lineSamples
  obtain ⟨-, -, -, -, -, distance, -, -⟩ := draws _ _ requests
  exact ⟨accepted, requests, distance.mpr (by decide +kernel),
    (succeeds countable).mpr (affordable_iff_requests_met.mp affordable)⟩

/-- An accepted scale beyond `2 ^ 1023`. -/
def hugeScale : Config :=
  { finetune := true, finetuneSteps := 0, perturbationScale := 1e308, randomState := some 1 }

/-- The greatest history that can be asked for. -/
def endlessHistory : Config :=
  { finetune := true, finetuneSteps := 0, historySize := 18446744073709551615,
    randomState := some 1 }

/-- A distance that is infinite and more bytes than can be addressed are asked for under accepted
configurations, and the refinement fails. -/
theorem accepted_requests_unmet :
    (hugeScale.validate = .ok () ∧
      Requests hugeScale ["2.0*x_0 + 2.0"] lineSamples (.offset (-1e308) 1e308) ∧
      (1e308 - -1e308 : Float).isFinite = false ∧ (2 * 1e308 : Float).isFinite = false ∧
      (refine hugeScale ["2.0*x_0 + 2.0"] lineSamples).isOk = false) ∧
    (endlessHistory.validate = .ok () ∧
      Requests endlessHistory ["2.0*x_0 + 2.0"] lineSamples (.room (18446744073709551615 * 56)) ∧
      2 ^ 63 - 1 < 18446744073709551615 * 56 ∧
      (refine endlessHistory ["2.0*x_0 + 2.0"] lineSamples).isOk = false) := by
  refine ⟨⟨by decide +kernel, requests_of_repair (s := doubledLine) (by decide +kernel)
      (by decide +kernel) ?_, by decide +kernel, by decide +kernel, by decide +kernel⟩,
    by decide +kernel, requests_of_repair (s := doubledLine) (by decide +kernel)
      (by decide +kernel) ?_, by decide, by decide +kernel⟩
  · exact .offset doubledLine_lifts (Expr.mem_drawnRanges_iff.mpr
      ⟨⟨rfl, rfl⟩, doubledLine_isPerturbed (by decide +kernel)⟩)
  · have compiled : ((doubledLine.parametrize (doubledLine.liftable.map Prod.fst)).compile
        (endlessHistory.finetuneSettings lineSamples.featureCount).compile).toOption.map
          (fun _ => ()) = some () := by decide +kernel
    obtain ⟨p, compiled, -⟩ := exists_of_map_toOption compiled
    exact .room ⟨doubledLine_lifts, by decide +kernel, p, compiled⟩

end Refinement

end FormulaFit
