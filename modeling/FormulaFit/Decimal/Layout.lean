import FormulaFit.Decimal.Shortest

/-!
# Layouts of decimals

A layout says how the shortest decimal of a double is spelled: which exponents are written
positionally, whether a whole number keeps a fraction, how an exponent is signed and how a tie
between two shortest decimals is broken.  The library writes three layouts: `Layout.literal` for
numbers in formulas, `Layout.plain` for numbers in messages and `Layout.json` for
numbers in JSON texts.
-/

namespace FormulaFit
namespace Decimal

/-- How a decimal is spelled. -/
structure Layout where
  /-- Least exponent of the leading digit that is written positionally. -/
  least : Int
  /-- Greatest exponent of the leading digit that is written positionally. -/
  greatest : Int
  /-- A whole number in positional form ends in a point and a zero. -/
  keepsFraction : Bool
  /-- A non-negative exponent is written with a plus sign. -/
  signsExponent : Bool
  /-- Choice between two shortest decimals at the same distance. -/
  tie : Tie
deriving DecidableEq, Repr

/-- Numbers in formulas: positional from `1e-4` up to below `1e16`, always with a fraction. -/
def Layout.literal : Layout := ⟨-4, 15, true, false, .up⟩

/-- Numbers in messages: always positional, and with a fraction only if there is one. -/
def Layout.plain : Layout := ⟨-400, 400, false, false, .up⟩

/-- Numbers in JSON texts: positional from `1e-5` up to below `1e16`, and a signed exponent
otherwise. -/
def Layout.json : Layout := ⟨-5, 15, true, true, .toEven⟩

/-- Decimal digits of a number, at least one. -/
def digitsOf (n : Nat) : List Char := Nat.toDigits 10 n

/-- Digits with a point before the last `places` of them, and zeros where digits are missing. -/
def positional (keepsFraction : Bool) (digits : List Char) (exponent : Int) : List Char :=
  if 0 ≤ exponent then
    digits ++ List.replicate exponent.toNat '0' ++ (if keepsFraction then ['.', '0'] else [])
  else
    let places := (-exponent).toNat
    let padded := List.replicate (places + 1 - digits.length) '0' ++ digits
    padded.take (padded.length - places) ++ '.' :: padded.drop (padded.length - places)

/-- One leading digit, a point if more follow, and the exponent of the leading digit. -/
def exponential (signsExponent : Bool) (digits : List Char) (lead : Int) : List Char :=
  let tail := digits.drop 1
  let sign := if lead < 0 then ['-'] else if signsExponent then ['+'] else []
  digits.take 1 ++ (if tail.isEmpty then [] else '.' :: tail) ++
    'e' :: sign ++ digitsOf lead.natAbs

/-- Spells a decimal. -/
def Layout.spell (layout : Layout) (d : Decimal) : List Char :=
  let digits := digitsOf d.digits
  let lead := d.exponent + digits.length - 1
  if layout.least ≤ lead && lead ≤ layout.greatest then
    positional layout.keepsFraction digits d.exponent
  else exponential layout.signsExponent digits lead

/-- Spells a finite double. -/
def Layout.finite (layout : Layout) (v : Float) : List Char :=
  (if Double.isNegative v then ['-'] else []) ++
    layout.spell (shortest layout.tie (Double.magnitude v))

/-- Spells any double; undefined and infinite ones by name. -/
def Layout.render (layout : Layout) (v : Float) : String :=
  if v.isNaN then "NaN"
  else if v.isFinite then String.ofList (layout.finite v)
  else if Double.isNegative v then "-inf" else "inf"

end Decimal
end FormulaFit
