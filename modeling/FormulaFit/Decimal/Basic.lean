import FormulaFit.Double

/-!
# Decimal numbers

A decimal is a natural number of some power of ten.  `toBits` rounds it to the nearest double.  The
exponent of a written number can be of any size, so it is brought into a range beyond which every
decimal overflows or vanishes before any power of ten is computed.
-/

namespace FormulaFit

-- Powers of naturals are those of the core library, whatever else is imported.
attribute [local instance (high)] instPowNat

/-- The number `digits * 10 ^ exponent`. -/
structure Decimal where
  /-- Significant digits, as a number. -/
  digits : Nat
  /-- Power of ten that multiplies them. -/
  exponent : Int
deriving DecidableEq, Repr

namespace Decimal

/-- No double reaches `10 ^ 400`, and none but zero lies within `10 ^ (-400)` of zero. -/
def exponentBound : Nat := 400

/-- Magnitude bits of the double nearest to the decimal; infinity when it is too large. -/
def toBits (d : Decimal) : Nat :=
  match d.exponent with
  | .ofNat e => Double.nearestBits (d.digits * 10 ^ min e exponentBound) 1
  | .negSucc e => Double.nearestBits d.digits (10 ^ min (e + 1) (exponentBound + d.digits.log2 + 1))

/-- The double nearest to the decimal, with the given sign. -/
def toFloat (negative : Bool) (d : Decimal) : Float :=
  Double.ofSignAndBits negative d.toBits

end Decimal

end FormulaFit
