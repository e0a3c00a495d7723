/-!
# Scalars

A formula is evaluated, folded, differentiated and scored over any type of numbers that offers the
operations of `Scalar`.  Machine doubles are one such type; an ordered field, completed by an
undefined value and two infinities, is another.  Everything in this file is derived from the
operations of the class alone, so it means the same over both.
-/

namespace FormulaFit

/-- Numbers a formula can be computed with. -/
class Scalar (α : Type) extends Zero α, One α, Neg α, Add α, Sub α, Mul α, Div α where
  /-- A natural number as a scalar. -/
  ofNat : Nat → α
  /-- The decimal fraction `digits / 10 ^ places`. -/
  ofDecimal (digits places : Nat) : α
  sin : α → α
  cos : α → α
  log : α → α
  sqrt : α → α
  exp : α → α
  abs : α → α
  /-- First argument raised to the second. -/
  pow : α → α → α
  /-- The value above every finite one. -/
  posInf : α
  /-- The value below every finite one. -/
  negInf : α
  /-- Numeric equality; it may identify distinct representations and fail on an undefined value. -/
  eq : α → α → Bool
  lt : α → α → Bool
  le : α → α → Bool
  /-- The value stands for no number at all. -/
  isNaN : α → Bool
  /-- The value stands for a number, and that number is not infinite. -/
  isFinite : α → Bool
  /-- A finite value without a fractional part. -/
  isIntegral : α → Bool
  /-- Identity of representations, which tells two zeros apart. -/
  identical : DecidableEq α

namespace Scalar

variable {α : Type} [Scalar α]

instance instDecidableEq : DecidableEq α := Scalar.identical

/-- The larger argument; an undefined one is ignored, and of two equal ones the second is taken. -/
def max (a b : α) : α :=
  if isNaN a then b else if isNaN b then a else if lt b a then a else b

/-- The smaller argument; an undefined one is ignored, and of two equal ones the second is taken. -/
def min (a b : α) : α :=
  if isNaN a then b else if isNaN b then a else if lt a b then a else b

/-- One with the sign of a non-zero argument. -/
def sign (a : α) : α :=
  if isNaN a then a else if lt a 0 then -1 else 1

/-- Sum from the left, starting at zero. -/
def sum (values : List α) : α := values.foldl (· + ·) 0

/-- Product from the left, starting at one. -/
def product (values : List α) : α := values.foldl (· * ·) 1

/-- Sum of the products of corresponding entries, as far as both lists reach.  It starts at minus
zero, which leaves every addend as it is. -/
def dot (a b : List α) : α := (List.zipWith (· * ·) a b).foldl (· + ·) (-0)

/-- Largest entry, at least the given floor. -/
def maximum (floor : α) (values : List α) : α := values.foldl max floor

/-- Smallest entry, at most the given ceiling. -/
def minimum (ceiling : α) (values : List α) : α := values.foldl min ceiling

end Scalar

end FormulaFit
