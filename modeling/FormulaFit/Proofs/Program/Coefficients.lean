import FormulaFit.Formula.Parser
import FormulaFit.Proofs.Optimize.Finetuning

/-!
# Free coefficients are refused

A coefficient in a formula has to be met by a vector that supplies it.  Sanitization and fine-tuning
refuse a formula with coefficients, and a program refuses every vector that is too short before it
reads an entry.  All of them go by the same count, one more than the greatest index, which wraps to
zero at the greatest word: the coefficient with that index is the only one that gets through.
-/

namespace FormulaFit

open Program (uncountable)

namespace Expr

variable {e : Expr Float}

/-- The count is positive exactly if some coefficient other than the uncountable one is
reachable. -/
theorem Valid.paramCount_pos_iff (valid : e.Valid) :
    0 < e.paramCount ↔ ∃ i, e.Reaches (.param i) ∧ i ≠ uncountable := by
  constructor
  · intro counted
    by_contra none_countable
    have all : ∀ i ∈ e.reachable.filterMap Node.paramIndex?, i = uncountable := by
      intro i member
      obtain ⟨n, member, index_eq⟩ := List.mem_filterMap.mp member
      cases n <;> cases index_eq
      by_contra countable
      exact none_countable ⟨i, valid.mem_reachable_iff.mp member, countable⟩
    rw [paramCount_eq, Program.foldl_countIndex_eq_zero all] at counted
    exact absurd counted (by decide)
  · rintro ⟨i, reaches, countable⟩
    by_contra uncounted
    exact countable (valid.eq_uncountable uncounted reaches)

theorem sanitize_of_paramCount_pos (accepted : e.validate = .ok ()) (counted : 0 < e.paramCount)
    (policy : SanitizePolicy) :
    e.sanitize policy = .error (.unsanitizable (.unboundParameters e.display)) := by
  rw [sanitize, accepted]
  exact if_pos counted

end Expr

namespace Program

variable {p : Program Float} {x : Matrix Float} {params : Array Float}

theorem checkInputs_of_size_ne (other : params.size ≠ p.paramCount) :
    p.checkInputs x params = .error (.data (.paramCount p.paramCount params.size)) :=
  if_pos other

theorem evaluate_of_size_ne (other : params.size ≠ p.paramCount) :
    p.evaluate x params = .error (.data (.paramCount p.paramCount params.size)) := by
  rw [evaluate, checkInputs_of_size_ne other]
  rfl

theorem lossAndGradient_of_size_ne (targets : List Float) (other : params.size ≠ p.paramCount) :
    p.lossAndGradient x targets params =
      .error (.data (.paramCount p.paramCount params.size)) := by
  rw [lossAndGradient, checkInputs_of_size_ne other]
  rfl

theorem Lowers.lt_paramCount_iff {options : CompileOptions Float} {e : Expr Float}
    (lowers : Lowers options e p) (valid : e.Valid) {i : UInt64} (reaches : e.Reaches (.param i)) :
    i.toNat < p.paramCount ↔ i ≠ uncountable := by
  rw [lowers.paramCount_eq]
  constructor
  · rintro counted rfl
    have bound := (countParams p.instrs).toNat_lt
    have index_eq : uncountable.toNat = 2 ^ 64 - 1 := rfl
    omega
  · intro countable
    obtain ⟨index, reachable, at_index⟩ := reaches
    obtain ⟨instr, found, lowered⟩ := lowers.instr_at valid reachable at_index
    obtain rfl : Instr.param i.toNat = instr := Except.ok.inj lowered
    exact lt_countParams (Array.mem_toList_iff.mpr (Array.mem_of_getElem? found)) countable

end Program

namespace Finetune

/-- A formula whose coefficients are counted is given back as it was, before any work. -/
theorem finetune_of_paramCount_pos {σ : Type} [WordSource σ] {e : Expr Float}
    (counted : 0 < e.paramCount) (settings : Settings) (data : Dataset) (maxSteps : Nat)
    (source : σ) :
    finetune settings data maxSteps e source =
      .ok ⟨e, 0, if e.features.isEmpty then .noParameters else .compileFailed⟩ := by
  rw [finetune]
  cases e.features.isEmpty with
  | true => rfl
  | false => exact if_pos counted

end Finetune

namespace Expr

/-- A reachable coefficient never gets through, unless it is the uncountable one: sanitization and
fine-tuning refuse the formula, and its program counts the coefficient and refuses every vector that
does not reach it. -/
theorem coefficients_refused (e : Expr Float) (accepted : e.validate = .ok ()) :
    (0 < e.paramCount ↔ ∃ i, e.Reaches (.param i) ∧ i ≠ uncountable) ∧
      (0 < e.paramCount →
        (∀ policy, e.sanitize policy = .error (.unsanitizable (.unboundParameters e.display))) ∧
        ∀ {σ : Type} [WordSource σ] (settings : Finetune.Settings) (data : Dataset)
            (maxSteps : Nat) (source : σ),
          Finetune.finetune settings data maxSteps e source =
            .ok ⟨e, 0, if e.features.isEmpty then .noParameters else .compileFailed⟩) ∧
      ∀ options p, e.compile options = .ok p → ∀ i, e.Reaches (.param i) →
        (i.toNat < p.paramCount ↔ i ≠ uncountable) ∧
          (i ≠ uncountable → ∀ (x : Matrix Float) (params : Array Float), params.size ≤ i.toNat →
            p.evaluate x params = .error (.data (.paramCount p.paramCount params.size)) ∧
            ∀ targets, p.lossAndGradient x targets params =
              .error (.data (.paramCount p.paramCount params.size))) := by
  have valid := (validate_eq_ok_iff e).mp accepted
  refine ⟨valid.paramCount_pos_iff, fun counted => ⟨?_, ?_⟩, fun options p compiled i reaches => ?_⟩
  · exact sanitize_of_paramCount_pos accepted counted
  · exact Finetune.finetune_of_paramCount_pos counted
  · have counted_iff := (lowers_of_compile compiled).lt_paramCount_iff valid reaches
    refine ⟨counted_iff, fun countable x params short => ?_⟩
    have other : params.size ≠ p.paramCount :=
      Nat.ne_of_lt (Nat.lt_of_le_of_lt short (counted_iff.mpr countable))
    exact ⟨Program.evaluate_of_size_ne other,
      fun targets => Program.lossAndGradient_of_size_ne targets other⟩

/-- The formula `C_1*x_0`. -/
def scaledFeature : Expr Float := ⟨#[.param 1, .var 0, .nary .mul [0, 1]], 2⟩

theorem scaledFeature_refused :
    scaledFeature.validate = .ok () ∧ 0 < scaledFeature.paramCount ∧
      ∃ p, scaledFeature.compile ⟨1, 5, 1⟩ = .ok p ∧ (1 : UInt64).toNat < p.paramCount := by
  have accepted : scaledFeature.validate = .ok () := rfl
  obtain ⟨counted_iff, -, compiles⟩ := coefficients_refused scaledFeature accepted
  have reaches : scaledFeature.Reaches (.param 1) := ⟨0, .child .root rfl (by decide), rfl⟩
  have compiled : (scaledFeature.compile ⟨1, 5, 1⟩).toOption.map Program.featureCount = some 1 := by
    decide +kernel
  obtain ⟨p, compiled, -⟩ := exists_of_map_toOption compiled
  exact ⟨accepted, counted_iff.mpr ⟨1, reaches, by decide⟩, p, compiled,
    (compiles _ p compiled 1 reaches).1.mpr (by decide)⟩

/-- The formula that is the uncountable coefficient. -/
def uncounted : Expr Float := ⟨#[.param uncountable], 0⟩

/-- The uncountable coefficient gets through: it can be written down, sanitization keeps it, and its
program accepts no coefficients at all and then reads beyond them. -/
theorem uncounted_not_refused :
    Formula.parse "C_18446744073709551615" = .ok uncounted ∧ uncounted.validate = .ok () ∧
      uncounted.Reaches (.param uncountable) ∧ uncounted.paramCount = 0 ∧
      uncounted.sanitize ⟨5, 1⟩ = .ok uncounted ∧
      ∃ p, uncounted.compile ⟨1, 5, 1⟩ = .ok p ∧ p.paramCount = 0 ∧
        p.evaluate (Matrix.ofColumn [1]) #[] = .error (.indexOutside uncountable.toNat 0) := by
  have compiled : (uncounted.compile ⟨1, 5, 1⟩).toOption.map (fun p => (p.paramCount,
      p.evaluate (Matrix.ofColumn [1]) #[])) =
        some (0, .error (.indexOutside uncountable.toNat 0)) := by decide +kernel
  obtain ⟨p, compiled, run⟩ := exists_of_map_toOption compiled
  obtain ⟨unsupplied, beyond⟩ := Prod.mk.inj run
  exact ⟨by decide +kernel, rfl, ⟨0, .root, rfl⟩, by decide +kernel, by decide +kernel, p, compiled,
    unsupplied, beyond⟩

end Expr

end FormulaFit
