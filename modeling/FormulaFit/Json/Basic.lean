import FormulaFit.Decimal.Layout
import FormulaFit.Decimal.Reader
import FormulaFit.Decimal.Scaling

/-!
# JSON values

Values of JSON texts.  A number keeps its spelling, because a count must be written as an integer
and a measure need not be; an object keeps all its members in order, because a record refuses a
field that is given twice.  The rest of this file reads parts of a value as numbers, tags, tuples
and records.
-/

namespace FormulaFit

/-- A number of a JSON text. -/
structure JsonNumber where
  /-- A minus stands before it. -/
  negative : Bool
  /-- What is written behind the sign: digits, perhaps a fraction, perhaps an exponent. -/
  spelling : List Char
deriving DecidableEq, Repr

namespace JsonNumber

/-- The number as a natural number, if it is written as one. -/
def toNat? (n : JsonNumber) : Option Nat :=
  if n.negative then none else Decimal.natural? n.spelling

/-- The number as a finite double.  The leading digits that fit 64 bits are scaled by their power of
ten, so a number of many digits can come out a neighbour of the nearest double. -/
def toFloat? (n : JsonNumber) : Option Float := do
  let d ← Decimal.readLeading? UInt64.size n.spelling
  let bits := d.scaledBits
  if bits < Double.infinityBits then some (Double.ofSignAndBits n.negative bits) else none

end JsonNumber

/-- A value of a JSON text. -/
inductive Json where
  | null
  | bool (b : Bool)
  | number (n : JsonNumber)
  | string (s : String)
  /-- A string with an unpaired surrogate, which can be skipped but not read. -/
  | unpaired
  | array (items : List Json)
  | object (members : List (String × Json))
deriving Repr, Inhabited

namespace Json

/-- A natural number. -/
def ofNat (n : Nat) : Json := number ⟨false, Decimal.digitsOf n⟩

/-- A double by its shortest decimal; only a finite one has a JSON form. -/
def ofFloat (v : Float) : Json :=
  if v.isFinite then
    let magnitude := Decimal.shortest Decimal.Layout.json.tie (Double.magnitude v)
    number ⟨Double.isNegative v, Decimal.Layout.json.spell magnitude⟩
  else null

/-- A natural number below a bound. -/
def natBelow? (bound : Nat) : Json → Option Nat
  | number n => n.toNat?.filter (· < bound)
  | _ => none

/-- A 64-bit word. -/
def word? (j : Json) : Option UInt64 := (j.natBelow? UInt64.size).map UInt64.ofNat

/-- A finite double. -/
def float? : Json → Option Float
  | number n => n.toFloat?
  | _ => none

/-- A truth value. -/
def bool? : Json → Option Bool
  | bool b => some b
  | _ => none

/-- A string. -/
def string? : Json → Option String
  | string s => some s
  | _ => none

/-- The items of an array. -/
def items? : Json → Option (List Json)
  | array items => some items
  | _ => none

/-- Something that may be left out by writing null. -/
def optional? {α : Type} (read? : Json → Option α) : Json → Option (Option α)
  | null => some none
  | j => (read? j).map some

/-- The only member of an object. -/
def variant? : Json → Option (String × Json)
  | object [member] => some member
  | _ => none

/-- The name of an alternative: a string, or the only member of an object if it is null. -/
def tag? : Json → Option String
  | string s => some s
  | object [(name, null)] => some name
  | _ => none

/-- The value of a member. -/
def member? (name : String) : Json → Option Json
  | object members => members.lookup name
  | _ => none

/-- The fields of a record, in the order of their names and none for a missing one.  A record is an
object without any of the fields twice, or an array of the first fields in order.  A closed record
has no other fields. -/
def record? (isClosed : Bool) (names : List String) : Json → Option (List (Option Json))
  | object members =>
    let given := members.map Prod.fst
    let isRepeated := names.any fun name => 1 < given.count name
    let isForeign := given.any fun name => !names.contains name
    if isRepeated || (isClosed && isForeign) then none
    else some (names.map fun name => members.lookup name)
  | array items =>
    if items.length ≤ names.length then
      some (items.map some ++ List.replicate (names.length - items.length) none)
    else none
  | _ => none

end Json

end FormulaFit
