import FormulaFit.Scalar

/-!
# Sums in eight lanes

Long sums are taken in eight lanes that run side by side over complete blocks of eight and are then
added in pairs; what is left of an incomplete block is added one by one.  Rounding makes the result
depend on this order, and over exact scalars it is the plain sum.
-/

namespace FormulaFit

/-- Eight partial sums. -/
structure Lanes (α : Type) where
  p0 : α
  p1 : α
  p2 : α
  p3 : α
  p4 : α
  p5 : α
  p6 : α
  p7 : α
deriving DecidableEq, Repr

namespace Lanes

variable {α : Type} [Scalar α]

/-- Empty lanes. -/
def zero : Lanes α := ⟨0, 0, 0, 0, 0, 0, 0, 0⟩

/-- The lanes added in pairs, from the left. -/
def total (p : Lanes α) : α := 0 + (p.p0 + p.p4) + (p.p1 + p.p5) + (p.p2 + p.p6) + (p.p3 + p.p7)

/-- Sum of a list that continues partial sums. -/
def sumFrom (p : Lanes α) : List α → α
  | a :: b :: c :: d :: e :: f :: g :: h :: rest =>
    sumFrom ⟨p.p0 + a, p.p1 + b, p.p2 + c, p.p3 + d, p.p4 + e, p.p5 + f, p.p6 + g, p.p7 + h⟩ rest
  | rest => rest.foldl (· + ·) p.total

end Lanes

/-- Sum of a list in eight lanes. -/
def laneSum {α : Type} [Scalar α] (values : List α) : α := Lanes.zero.sumFrom values

/-- Mean of a list; undefined of none. -/
def laneMean {α : Type} [Scalar α] (values : List α) : α :=
  laneSum values / Scalar.ofNat values.length

end FormulaFit
