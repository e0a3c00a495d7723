import FormulaFit.Proofs.Decimal.Numerals
import FormulaFit.Proofs.Formula.TermReaders

/-!
# What names stand for

A name by itself stands for an input, a coefficient, a named value or the base of the natural
logarithm.  In front of arguments it is a function: one of the vocabulary takes the number of
arguments that it needs, and any other takes every number of them.
-/

namespace FormulaFit
namespace Formula

open Decimal (Digits ofDigits)

/-- The node that a name by itself stands for. -/
inductive Names : String → Node Float Term → Prop where
  | var {name : String} {digits : List Char} {i : UInt64}
      (spelled : name.toList = 'x' :: '_' :: digits) (is_index : Digits digits)
      (value : ofDigits digits = i.toNat) : Names name (.var i)
  | param {name : String} {digits : List Char} {i : UInt64}
      (spelled : name.toList = 'C' :: '_' :: digits) (is_index : Digits digits)
      (value : ofDigits digits = i.toNat) : Names name (.param i)
  | pi : Names "pi" (.symbol .pi)
  | infinity : Names "oo" (.symbol .posInf)
  | complexInfinity : Names "zoo" (.symbol .complexInf)
  | imaginary : Names "I" (.symbol .imaginary)
  | nan : Names "nan" (.symbol .nan)
  | notANumber : Names "NaN" (.symbol .nan)
  | euler : Names "E" (.const eulerNumber)

/-- The term that a function of some arguments stands for. -/
inductive Calls : String → List Term → Term → Prop where
  | unary {name : String} {op : UnaryOp} (known : unaryFunction? name = some op) (a : Term) :
      Calls name [a] (.node (.unary op a))
  | nary {name : String} {op : NaryOp} (known : naryFunction? name = some op) {args : List Term}
      (nonempty : args ≠ []) : Calls name args (close op args)
  | clip (value low high : Term) : Calls "clip" [value, low, high] (.clip value low high)
  | bounds (low high : Term) : Calls "AccumBounds" [low, high] (.node (.bounds low high))
  | foreign {name : String} (not_unary : unaryFunction? name = none)
      (not_nary : naryFunction? name = none) (not_clip : name ≠ "clip")
      (not_bounds : name ≠ "AccumBounds") (args : List Term) :
      Calls name args (.node (.call name args))

theorem index?_eq_some_iff {letter : Char} {name : String} {i : UInt64} :
    index? letter name = some i ↔ ∃ digits, name.toList = letter :: '_' :: digits ∧
      Digits digits ∧ ofDigits digits = i.toNat := by
  unfold index?
  split
  · rename_i c digits spelled
    rw [spelled]
    constructor
    · intro found
      dsimp only at found
      split at found
      · rename_i holds
        simp only [Bool.and_eq_true, decide_eq_true_eq, Bool.not_eq_true',
          List.isEmpty_eq_false_iff, List.all_eq_true] at holds
        obtain ⟨⟨⟨rfl, ne_nil⟩, is_digit⟩, in_range⟩ := holds
        obtain rfl := Option.some.inj found
        refine ⟨digits, rfl, ⟨ne_nil, is_digit⟩, ?_⟩
        rw [UInt64.toNat_ofNat', Nat.mod_eq_of_lt in_range]
      · cases found
    · rintro ⟨digits', same, is_index, value⟩
      obtain ⟨rfl, rfl⟩ : c = letter ∧ digits = digits' := by simpa using same
      have in_range : i.toNat < UInt64.size := i.toNat_lt
      have all : digits.all Char.isDigit = true := List.all_eq_true.mpr is_index.isDigit
      simp [is_index.ne_nil, all, in_range, value]
  · rename_i other
    simp only [reduceCtorEq, false_iff]
    rintro ⟨digits, spelled, -⟩
    exact other _ _ spelled

theorem atom?_eq_some_iff {name : String} {n : Node Float Term} :
    atom? name = some n ↔ Names name n := by
  constructor
  · intro found
    unfold atom? at found
    split at found
    · rename_i indexed
      obtain rfl := Option.some.inj found
      obtain ⟨digits, spelled, is_index, value⟩ := index?_eq_some_iff.mp indexed
      exact .var spelled is_index value
    · rename_i indexed
      obtain rfl := Option.some.inj found
      obtain ⟨digits, spelled, is_index, value⟩ := index?_eq_some_iff.mp indexed
      exact .param spelled is_index value
    · split at found <;> first | (obtain rfl := Option.some.inj found; constructor) | cases found
  · intro names
    cases names with
    | var spelled is_index value =>
        unfold atom?
        rw [index?_eq_some_iff.mpr ⟨_, spelled, is_index, value⟩]
    | @param name digits i spelled is_index value =>
        have other : index? 'x' name = none := by
          refine Option.eq_none_iff_forall_ne_some.mpr fun j found => ?_
          obtain ⟨digits', spelled', -⟩ := index?_eq_some_iff.mp found
          cases spelled.symm.trans spelled'
        unfold atom?
        rw [other, index?_eq_some_iff.mpr ⟨_, spelled, is_index, value⟩]
    | _ => rfl

theorem call_eq_ok_iff {name : String} {args : List Term} {t : Term} :
    call name args = .ok t ↔ Calls name args t := by
  constructor
  · intro value
    unfold call at value
    split at value
    · rename_i known
      split at value
      · cases value
        exact .unary known _
      · cases value
    · rename_i known
      split at value
      · cases value
      · rename_i nonempty
        cases value
        exact .nary known (by simpa using nonempty)
    · rename_i not_unary not_nary
      split at value
      · rename_i is_clip
        subst is_clip
        split at value
        · cases value
          exact .clip _ _ _
        · cases value
      · rename_i not_clip
        split at value
        · rename_i is_bounds
          subst is_bounds
          split at value
          · cases value
            exact .bounds _ _
          · cases value
        · rename_i not_bounds
          cases value
          exact .foreign not_unary not_nary not_clip not_bounds args
  · intro calls
    cases calls with
    | unary known a => simp [call, known]
    | @nary name op known args nonempty =>
        have not_unary : unaryFunction? name = none := by
          unfold naryFunction? at known
          split at known <;> first | rfl | cases known
        simp [call, not_unary, known, nonempty]
    | clip value low high => rfl
    | bounds low high => rfl
    | foreign not_unary not_nary not_clip not_bounds =>
        simp [call, not_unary, not_nary, not_clip, not_bounds]

end Formula
end FormulaFit
