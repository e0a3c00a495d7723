import FormulaFit.Operator
import Mathlib.Algebra.Field.Rat
import Mathlib.Algebra.Order.Field.Basic
import Mathlib.Algebra.Order.Ring.Rat

/-!
# Exact scalars

An ordered field is completed by an undefined value and two infinities, which are the values of the
empty maximum and minimum.  Arithmetic is that of the field, and anything outside it is undefined.
The elementary functions are uninterpreted; a logarithm, a root, a power or a quotient by zero may
be undefined.
-/

namespace FormulaFit

/-- What the elementary functions mean over a field. -/
class Interpretation (K : Type) where
  sin : K → K
  cos : K → K
  exp : K → K
  /-- Logarithm, where it is defined. -/
  log? : K → Option K
  /-- Square root, where it is defined. -/
  sqrt? : K → Option K
  /-- Power, where it is defined. -/
  pow? : K → K → Option K
  /-- Quotient by zero, where it is defined. -/
  overZero? : K → Option K
  /-- The value counts as an integer. -/
  isIntegral : K → Bool

/-- An element of a field, or one of three values outside it. -/
inductive Exact (K : Type) where
  /-- No value. -/
  | nan
  /-- Below every element. -/
  | negInf
  /-- An element. -/
  | real (v : K)
  /-- Above every element. -/
  | posInf
deriving DecidableEq

namespace Exact

variable {K : Type}

/-- A value that may be undefined. -/
def ofOption : Option K → Exact K
  | some v => real v
  | none => nan

/-- The element that the value is. -/
def real? : Exact K → Option K
  | real v => some v
  | _ => none

/-- An operation of the field, which is undefined outside it. -/
def lift (f : K → Option K) : Exact K → Exact K
  | real a => ofOption (f a)
  | _ => nan

/-- An operation of two operands of the field, which is undefined outside it. -/
def lift₂ (f : K → K → Option K) : Exact K → Exact K → Exact K
  | real a, real b => ofOption (f a b)
  | _, _ => nan

theorem real_injective : Function.Injective (real : K → Exact K) := fun _ _ same =>
  Exact.real.inj same

/-- The quotient, where it is defined. -/
def div? [Field K] [DecidableEq K] [Interpretation K] (a b : K) : Option K :=
  if b = 0 then Interpretation.overZero? a else some (a / b)

/-- The value with the opposite sign. -/
def negate [Neg K] : Exact K → Exact K
  | nan => nan
  | negInf => posInf
  | real v => real (-v)
  | posInf => negInf

/-- The order; an undefined value is not below any other. -/
def below [LT K] [DecidableLT K] : Exact K → Exact K → Bool
  | real a, real b => decide (a < b)
  | negInf, real _ | negInf, posInf | real _, posInf => true
  | _, _ => false

instance [Field K] [LinearOrder K] [Interpretation K] : Scalar (Exact K) where
  zero := real 0
  one := real 1
  neg := negate
  add := lift₂ fun a b => some (a + b)
  sub := lift₂ fun a b => some (a - b)
  mul := lift₂ fun a b => some (a * b)
  div := lift₂ div?
  ofNat n := real n
  ofDecimal digits places := real (digits / 10 ^ places)
  sin := lift fun a => some (Interpretation.sin a)
  cos := lift fun a => some (Interpretation.cos a)
  log := lift Interpretation.log?
  sqrt := lift Interpretation.sqrt?
  exp := lift fun a => some (Interpretation.exp a)
  abs := lift fun a => some |a|
  pow := lift₂ Interpretation.pow?
  posInf := posInf
  negInf := negInf
  eq a b := decide (a ≠ nan) && decide (a = b)
  lt := below
  le a b := below a b || (decide (a ≠ nan) && decide (a = b))
  isNaN a := decide (a = nan)
  isFinite a := a.real?.isSome
  isIntegral a := (a.real?.map Interpretation.isIntegral).getD false
  identical := inferInstance

section Rules

variable [Field K] [LinearOrder K] [Interpretation K]

theorem zero_eq : (0 : Exact K) = real 0 := rfl

theorem getD_map_real (entries : Array K) (i : Nat) :
    (entries.map real).getD i 0 = real (entries.getD i 0) := by
  rw [Array.getD_eq_getD_getElem?, Array.getElem?_map, Array.getD_eq_getD_getElem?, zero_eq]
  cases entries[i]? <;> rfl

theorem one_eq : (1 : Exact K) = real 1 := rfl

theorem ofNat_eq (n : Nat) : (Scalar.ofNat n : Exact K) = real (n : K) := rfl

@[simp]
theorem neg_real (a : K) : -real a = real (-a) := rfl

@[simp]
theorem real_add (a b : K) : real a + real b = real (a + b) := rfl

@[simp]
theorem real_sub (a b : K) : real a - real b = real (a - b) := rfl

@[simp]
theorem real_mul (a b : K) : real a * real b = real (a * b) := rfl

theorem real_div (a b : K) : real a / real b = ofOption (div? a b) := rfl

@[simp]
theorem eq_real (a b : K) : Scalar.eq (real a) (real b) = decide (a = b) := by
  change (decide (real a ≠ nan) && decide (real a = real b)) = _
  simp

@[simp]
theorem lt_real (a b : K) : Scalar.lt (real a) (real b) = decide (a < b) := rfl

@[simp]
theorem isFinite_real (a : K) : Scalar.isFinite (real a) = true := rfl

/-- Exactly the elements of the field are finite. -/
theorem isFinite_iff {a : Exact K} : Scalar.isFinite a = true ↔ ∃ v, a = real v := by
  cases a with
  | real v => simp
  | _ => simp [Scalar.isFinite, real?]

theorem sum_map_real (values : List K) (start : K) :
    (values.map real).foldl (· + ·) (real start) = real (start + values.sum) := by
  induction values generalizing start with
  | nil => simp
  | cons v values ih =>
      rw [List.map_cons, List.foldl_cons, real_add, ih, List.sum_cons, add_assoc]

theorem prod_map_real (values : List K) (start : K) :
    (values.map real).foldl (· * ·) (real start) = real (start * values.prod) := by
  induction values generalizing start with
  | nil => simp
  | cons v values ih =>
      rw [List.map_cons, List.foldl_cons, real_mul, ih, List.prod_cons, mul_assoc]

@[simp]
theorem max_real (a b : K) : Scalar.max (real a) (real b) = real (max a b) := by
  simp only [Scalar.max, Scalar.isNaN, decide_false, Bool.false_eq_true, if_false, lt_real,
    decide_eq_true_eq, reduceCtorEq]
  rcases lt_or_ge b a with less | le
  · rw [if_pos less, max_eq_left less.le]
  · rw [if_neg (not_lt.mpr le), max_eq_right le]

@[simp]
theorem min_real (a b : K) : Scalar.min (real a) (real b) = real (min a b) := by
  simp only [Scalar.min, Scalar.isNaN, decide_false, Bool.false_eq_true, if_false, lt_real,
    decide_eq_true_eq, reduceCtorEq]
  rcases lt_or_ge a b with less | le
  · rw [if_pos less, min_eq_left less.le]
  · rw [if_neg (not_lt.mpr le), min_eq_right le]

theorem foldl_max_real (values : List K) (start : K) :
    (values.map real).foldl Scalar.max (real start) = real (values.foldl max start) := by
  induction values generalizing start with
  | nil => rfl
  | cons v values ih => rw [List.map_cons, List.foldl_cons, max_real, ih, List.foldl_cons]

theorem foldl_min_real (values : List K) (start : K) :
    (values.map real).foldl Scalar.min (real start) = real (values.foldl min start) := by
  induction values generalizing start with
  | nil => rfl
  | cons v values ih => rw [List.map_cons, List.foldl_cons, min_real, ih, List.foldl_cons]

end Rules

end Exact

section Operators

variable {K : Type} [Field K] [LinearOrder K] [Interpretation K]

/-- The exact meaning of an operator, where it is defined. -/
def UnaryOp.meaning? : UnaryOp → K → Option K
  | neg, a => some (-a)
  | sin, a => some (Interpretation.sin a)
  | cos, a => some (Interpretation.cos a)
  | log, a => Interpretation.log? a
  | sqrt, a => Interpretation.sqrt? a
  | exp, a => some (Interpretation.exp a)
  | abs, a => some |a|

/-- The exact meaning of an operator, where it is defined. -/
def BinaryOp.meaning? : BinaryOp → K → K → Option K
  | sub, a, b => some (a - b)
  | div, a, b => Exact.div? a b
  | pow, a, b => Interpretation.pow? a b

/-- The exact meaning of an operator, where it is defined. -/
def NaryOp.meaning? : NaryOp → List K → Option K
  | add, values => some values.sum
  | mul, values => some values.prod
  | max, values => values.max?
  | min, values => values.min?

theorem UnaryOp.apply_real (op : UnaryOp) (a : K) :
    op.apply (Exact.real a) = Exact.ofOption (op.meaning? a) := by
  cases op <;> rfl

theorem BinaryOp.apply_real (op : BinaryOp) (a b : K) :
    op.apply (Exact.real a) (Exact.real b) = Exact.ofOption (op.meaning? a b) := by
  cases op <;> rfl

/-- An operator is evaluated exactly. -/
theorem NaryOp.fold_real {op : NaryOp} {values : List K} {v : K}
    (defined : op.meaning? values = some v) : op.fold (values.map Exact.real) = Exact.real v := by
  cases op with
  | add =>
      obtain rfl : values.sum = v := by simpa [meaning?] using defined
      exact (Exact.sum_map_real values 0).trans (by rw [zero_add])
  | mul =>
      obtain rfl : values.prod = v := by simpa [meaning?] using defined
      exact (Exact.prod_map_real values 1).trans (by rw [one_mul])
  | max =>
      cases values with
      | nil => simp [meaning?] at defined
      | cons head values =>
          obtain rfl : values.foldl Max.max head = v :=
            Option.some.inj (List.max?_cons'.symm.trans defined)
          exact Exact.foldl_max_real values head
  | min =>
      cases values with
      | nil => simp [meaning?] at defined
      | cons head values =>
          obtain rfl : values.foldl Min.min head = v :=
            Option.some.inj (List.min?_cons'.symm.trans defined)
          exact Exact.foldl_min_real values head

end Operators

/-- Elementary functions over the rationals as far as they have rational values: powers are those
with an integral exponent. -/
@[reducible]
def rationalInterpretation : Interpretation ℚ where
  sin _ := 0
  cos _ := 1
  exp _ := 1
  log? a := if a = 1 then some 0 else none
  sqrt? a := if a = 0 ∨ a = 1 then some a else none
  pow? a b :=
    if b.den = 1 then if a = 0 ∧ b < 0 then none else some (a ^ b.num)
    else if a = 1 then some 1 else none
  overZero? _ := none
  isIntegral b := b.den == 1

end FormulaFit
