import FormulaFit.Scalar

/-!
# Doubles as multiples of the least double

The magnitude of every finite double is a whole number of least positive doubles, `2 ^ (-1074)`.
`parts` reads that number off the bits as `mantissa * 2 ^ place`; `nearestBits` goes the other way
and rounds any fraction of naturals to the nearest double, a half to the even neighbour, and
`productBits` and `quotientBits` compute with magnitudes through it.  All of it is plain arithmetic
of naturals, so that printing and reading decimals can be reasoned about exactly.
-/

namespace FormulaFit
namespace Double

-- Powers of naturals are those of the core library, whatever else is imported.
attribute [local instance (high)] instPowNat

/-- Number of bits of the fraction field. -/
def fractionBits : Nat := 52

/-- The unit counts least positive doubles: there are `2 ^ unitPlace` of them in one. -/
def unitPlace : Nat := 1074

/-- Magnitude bits of infinity; finite magnitudes are those below. -/
def infinityBits : Nat := 2047 * 2 ^ fractionBits

/-- Weight of the sign bit. -/
def signWeight : Nat := 2 ^ (63 : Nat)

/-- A whole number of least positive doubles, with the power of two that its bits leave out. -/
structure Parts where
  /-- Significant bits, at most `2 ^ 53 - 1` of a double. -/
  mantissa : Nat
  /-- Power of two that multiplies them. -/
  place : Nat
deriving DecidableEq, Repr

/-- How many least positive doubles the parts make up. -/
def Parts.units (parts : Parts) : Nat := parts.mantissa * 2 ^ parts.place

/-- The sign bit is set. -/
def isNegative (v : Float) : Bool := signWeight ≤ v.toBits.toNat

/-- The bits without the sign. -/
def magnitude (v : Float) : Nat := v.toBits.toNat % signWeight

/-- Reads finite magnitude bits; the leading bit is implied unless the exponent field is zero. -/
def parts (bits : Nat) : Parts :=
  let exponent := bits / 2 ^ fractionBits
  let fraction := bits % 2 ^ fractionBits
  if exponent = 0 then ⟨fraction, 0⟩ else ⟨fraction + 2 ^ fractionBits, exponent - 1⟩

/-- The whole number nearest to `num / den`, a half going to the even neighbour. -/
def roundHalfEven (num den : Nat) : Nat :=
  let quotient := num / den
  let doubled := 2 * (num % den)
  if doubled < den then quotient
  else if den < doubled then quotient + 1
  else quotient + quotient % 2

/-- Magnitude bits of the double nearest to `num / den`; infinity when it is too large. -/
def nearestBits (num den : Nat) : Nat :=
  let units := num * 2 ^ unitPlace
  let place := (units / den).log2 - fractionBits
  let mantissa := roundHalfEven units (den * 2 ^ place)
  min (place * 2 ^ fractionBits + mantissa) infinityBits

/-- Magnitude bits of the product of two finite magnitudes, rounded to the nearest double. -/
def productBits (a b : Nat) : Nat :=
  nearestBits ((parts a).units * (parts b).units) (2 ^ unitPlace * 2 ^ unitPlace)

/-- Magnitude bits of the quotient of two finite magnitudes, rounded to the nearest double. -/
def quotientBits (a b : Nat) : Nat := nearestBits (parts a).units (parts b).units

/-- The double with the given sign and magnitude bits. -/
def ofSignAndBits (negative : Bool) (bits : Nat) : Float :=
  Float.ofBits (UInt64.ofNat ((if negative then signWeight else 0) + bits))

/-- A finite double without a fractional part. -/
def isIntegral (v : Float) : Bool :=
  let p := parts (magnitude v)
  v.isFinite && p.mantissa % 2 ^ (unitPlace - p.place) == 0

end Double

instance instScalarFloat : Scalar Float where
  zero := 0
  one := 1
  neg := Float.neg
  add := Float.add
  sub := Float.sub
  mul := Float.mul
  div := Float.div
  ofNat := Float.ofNat
  ofDecimal digits places := Float.ofScientific digits true places
  sin := Float.sin
  cos := Float.cos
  log := Float.log
  sqrt := Float.sqrt
  exp := Float.exp
  abs := Float.abs
  pow := Float.pow
  posInf := Float.ofBits 0x7ff0000000000000
  negInf := Float.ofBits 0xfff0000000000000
  eq a b := a == b
  lt a b := decide (a < b)
  le a b := decide (a ≤ b)
  isNaN := Float.isNaN
  isFinite := Float.isFinite
  isIntegral := Double.isIntegral
  identical := inferInstance

end FormulaFit
