import FormulaFit.Decimal.Basic

/-!
# Shortest decimals

`shortest` finds the decimal with the fewest digits that rounds to a given double, and among those
the one nearest to it.  The decimals of one exponent form a grid.  Grids are tried from coarse to
fine, and of each only the two neighbours of the double can lie in the interval of numbers that
round to it, so the first grid with a neighbour in the interval decides.
-/

namespace FormulaFit
namespace Decimal

-- Powers of naturals are those of the core library, whatever else is imported.
attribute [local instance (high)] instPowNat

/-- How to choose between two shortest decimals at the same distance. -/
inductive Tie where
  /-- The decimal whose last digit is even. -/
  | toEven
  /-- The larger decimal. -/
  | up
deriving DecidableEq, Repr

/-- The numbers that round to one double, in quarters of the least double; the ends belong to it
when its mantissa is even. -/
structure Interval where
  low : Nat
  /-- The double itself. -/
  centre : Nat
  high : Nat
  /-- The ends round to the double too. -/
  closed : Bool
deriving DecidableEq, Repr

/-- The interval of a positive finite double.  Below a power of two the spacing halves. -/
def Interval.ofParts (p : Double.Parts) : Interval :=
  let below := if p.mantissa = 2 ^ Double.fractionBits && p.place ≠ 0 then 1 else 2
  { low := (4 * p.mantissa - below) * 2 ^ p.place
    centre := 4 * p.mantissa * 2 ^ p.place
    high := (4 * p.mantissa + 2) * 2 ^ p.place
    closed := p.mantissa % 2 == 0 }

/-- The point `a / b` lies in the interval. -/
def Interval.contains (i : Interval) (a b : Nat) : Bool :=
  if i.closed then i.low * b ≤ a && a ≤ i.high * b else i.low * b < a && a < i.high * b

/-- Quarters of the least double in one. -/
def quarters : Nat := 4 * 2 ^ Double.unitPlace

/-- The neighbour of the double that the grid of the given exponent offers, if one rounds to it. -/
def onGrid? (tie : Tie) (i : Interval) (exponent : Int) : Option Decimal :=
  let step := quarters * 10 ^ exponent.toNat
  let scale := 10 ^ (-exponent).toNat
  let below := i.centre * scale / step
  let above := below + 1
  match i.contains (below * step) scale, i.contains (above * step) scale with
  | false, false => none
  | true, false => some ⟨below, exponent⟩
  | false, true => some ⟨above, exponent⟩
  | true, true =>
    let remainder := 2 * (i.centre * scale % step)
    if remainder < step then some ⟨below, exponent⟩
    else if step < remainder then some ⟨above, exponent⟩
    else match tie with
      | .up => some ⟨above, exponent⟩
      | .toEven => some ⟨if below % 2 = 0 then below else above, exponent⟩

/-- An exponent of ten above the double: no decimal of it or beyond lies below the double. -/
def topExponent (i : Interval) : Int :=
  ((i.centre.log2 : Int) + 1 - (Double.unitPlace + 2)) * 30103 / 100000 + 2

/-- Grids that are tried; seventeen digits always suffice, and the top may be a few too high. -/
def gridCount : Nat := 24

/-- The shortest decimal that rounds to the double with the given finite magnitude bits. -/
def shortest (tie : Tie) (bits : Nat) : Decimal :=
  let p := Double.parts bits
  if p.mantissa = 0 then ⟨0, 0⟩
  else
    let i := Interval.ofParts p
    let top := topExponent i
    ((List.range gridCount).findSome? fun (n : Nat) => onGrid? tie i (top - n)).getD ⟨0, 0⟩

end Decimal
end FormulaFit
