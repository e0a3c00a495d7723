import FormulaFit.Decimal.Basic

/-!
# Scaling decimals in doubles

`toBits` rounds a decimal once.  `scaledBits` computes in doubles instead: it rounds the digits and
then multiplies or divides them by a power of ten, which rounds again.  When the digits and the
power of ten are doubles themselves only the last step rounds and both agree; otherwise the result
can be a neighbour of the nearest double.
-/

namespace FormulaFit
namespace Decimal

-- Powers of naturals are those of the core library, whatever else is imported.
attribute [local instance (high)] instPowNat

/-- Exponent of the greatest power of ten below infinity. -/
def greatestPower : Nat := 308

/-- Magnitude bits of the double nearest to a power of ten. -/
def powerBits (exponent : Nat) : Nat := Double.nearestBits (10 ^ exponent) 1

/-- The magnitude of a whole number times a power of ten; beyond the greatest power only that of
zero stays finite. -/
def timesPower (bits exponent : Nat) : Nat :=
  if exponent ≤ greatestPower then Double.productBits bits (powerBits exponent)
  else if bits = 0 then 0
  else Double.infinityBits

/-- A magnitude over a power of ten.  Beyond the greatest power it is divided by that one first, as
often as needed or until it vanishes. -/
def overPower (bits exponent : Nat) : Nat :=
  if exponent ≤ greatestPower then Double.quotientBits bits (powerBits exponent)
  else if bits = 0 then 0
  else overPower (Double.quotientBits bits (powerBits greatestPower)) (exponent - greatestPower)
termination_by exponent
decreasing_by simp only [greatestPower] at *; omega

/-- Magnitude bits of the decimal, its digits rounded before they are scaled; infinity when it is
too large. -/
def scaledBits (d : Decimal) : Nat :=
  let bits := Double.nearestBits d.digits 1
  match d.exponent with
  | .ofNat e => timesPower bits e
  | .negSucc e => overPower bits (e + 1)

end Decimal
end FormulaFit
