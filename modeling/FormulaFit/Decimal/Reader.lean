import FormulaFit.Decimal.Basic

/-!
# Reading decimals

An unsigned decimal is a run of digits with at most one point among them and at least one digit,
optionally followed by `e` or `E`, an optional sign and at least one digit.  `read?` keeps every
digit; `readLeading?` keeps those that fit a bound, and the power of ten of the others.
-/

namespace FormulaFit
namespace Decimal

/-- The value of a run of decimal digits. -/
def ofDigits (cs : List Char) : Nat :=
  cs.foldl (fun value c => 10 * value + (c.toNat - '0'.toNat)) 0

/-- Reads a whole text as a run of digits. -/
def natural? (cs : List Char) : Option Nat :=
  if cs.isEmpty || !cs.all Char.isDigit then none else some (ofDigits cs)

/-- Reads what follows the exponent mark. -/
def exponent? : List Char → Option Int
  | '-' :: cs => (natural? cs).map fun e => -(e : Int)
  | '+' :: cs => (natural? cs).map fun e => (e : Int)
  | cs => (natural? cs).map fun e => (e : Int)

/-- The digits behind a point, and what follows them; no digits when there is no point. -/
def fraction : List Char → List Char × List Char
  | '.' :: cs => (cs.takeWhile Char.isDigit, cs.dropWhile Char.isDigit)
  | cs => ([], cs)

/-- Reads the exponent behind the digits; zero when nothing stands there. -/
def scale? : List Char → Option Int
  | [] => some 0
  | mark :: cs => if mark = 'e' || mark = 'E' then exponent? cs else none

/-- Reads a whole text as an unsigned decimal. -/
def read? (cs : List Char) : Option Decimal :=
  let whole := cs.takeWhile Char.isDigit
  let (part, rest) := fraction (cs.dropWhile Char.isDigit)
  if whole.isEmpty && part.isEmpty then none
  else (scale? rest).map fun e => ⟨ofDigits (whole ++ part), e - part.length⟩

/-- Appends digits to a number as long as it stays below a bound; gives the number and the digits
that are left over. -/
def append (bound value : Nat) : List Char → Nat × List Char
  | [] => (value, [])
  | c :: cs =>
    let extended := 10 * value + (c.toNat - '0'.toNat)
    if extended < bound then append bound extended cs else (value, c :: cs)

/-- Reads a whole text as an unsigned decimal whose digits stay below a bound.  The digits left over
before the point count as zeros, those behind it are dropped. -/
def readLeading? (bound : Nat) (cs : List Char) : Option Decimal :=
  let whole := cs.takeWhile Char.isDigit
  let (part, rest) := fraction (cs.dropWhile Char.isDigit)
  if whole.isEmpty && part.isEmpty then none
  else
    let (digits, raised) := append bound 0 whole
    let (digits, dropped) := append bound digits part
    (scale? rest).map fun e => ⟨digits, e + raised.length + dropped.length - part.length⟩

end Decimal
end FormulaFit
