import FormulaFit.Json.Basic

/-!
# Reading JSON

Reads a text as exactly one JSON value, by the strict grammar: no leading zeros, no trailing commas,
no control characters in strings, blanks only where the grammar has them.
-/

namespace FormulaFit
namespace Json

/-- Blanks of a JSON text. -/
def isBlank (c : Char) : Bool := c == ' ' || c == '\n' || c == '\t' || c == '\r'

/-- What is left behind blanks. -/
def skip (cs : List Char) : List Char := cs.dropWhile isBlank

/-- A character of a string: itself, or a 16-bit unit given by an escape. -/
inductive StringUnit where
  | char (c : Char)
  | escape (code : Nat)
deriving DecidableEq, Repr

/-- The value of a hexadecimal digit. -/
def hexDigit? (c : Char) : Option Nat :=
  if c.isDigit then some (c.toNat - '0'.toNat)
  else if 'a' ≤ c ∧ c ≤ 'f' then some (c.toNat - 'a'.toNat + 10)
  else if 'A' ≤ c ∧ c ≤ 'F' then some (c.toNat - 'A'.toNat + 10)
  else none

/-- The value of four hexadecimal digits. -/
def hexCode? (a b c d : Char) : Option Nat := do
  let a ← hexDigit? a
  let b ← hexDigit? b
  let c ← hexDigit? c
  let d ← hexDigit? d
  return ((a * 16 + b) * 16 + c) * 16 + d

/-- What a letter behind a backslash stands for. -/
def escaped? : Char → Option Char
  | '"' => some '"'
  | '\\' => some '\\'
  | '/' => some '/'
  | 'b' => some '\x08'
  | 'f' => some '\x0c'
  | 'n' => some '\n'
  | 'r' => some '\r'
  | 't' => some '\t'
  | _ => none

/-- Reads a string behind its opening quote, up to and including the closing one. -/
def stringUnits : List Char → Option (List StringUnit × List Char)
  | [] => none
  | '"' :: rest => some ([], rest)
  | '\\' :: 'u' :: a :: b :: c :: d :: rest => do
    let code ← hexCode? a b c d
    let (units, rest) ← stringUnits rest
    return (.escape code :: units, rest)
  | '\\' :: c :: rest => do
    let c ← escaped? c
    let (units, rest) ← stringUnits rest
    return (.char c :: units, rest)
  | c :: rest =>
    if c.toNat < 0x20 then none
    else do
      let (units, rest) ← stringUnits rest
      return (.char c :: units, rest)

/-- The first half of a surrogate pair. -/
def isHigh (code : Nat) : Bool := 0xd800 ≤ code && code < 0xdc00

/-- The second half of a surrogate pair. -/
def isLow (code : Nat) : Bool := 0xdc00 ≤ code && code < 0xe000

/-- The characters of a string; none if a surrogate is not in a pair. -/
def assemble? : List StringUnit → Option (List Char)
  | [] => some []
  | .char c :: units => (assemble? units).map (c :: ·)
  | .escape code :: .escape code' :: units =>
    if isHigh code && isLow code' then
      (assemble? units).map (Char.ofNat ((code - 0xd800) * 0x400 + (code' - 0xdc00) + 0x10000) :: ·)
    else if isHigh code || isLow code then none
    else (assemble? (.escape code' :: units)).map (Char.ofNat code :: ·)
  | .escape code :: units =>
    if isHigh code || isLow code then none else (assemble? units).map (Char.ofNat code :: ·)

/-- A run of digits without a leading zero, unless it is a single zero. -/
def wholePart? (cs : List Char) : Option (List Char × List Char) :=
  match cs with
  | '0' :: rest => some (['0'], rest)
  | _ =>
    let digits := cs.takeWhile Char.isDigit
    if digits.isEmpty then none else some (digits, cs.dropWhile Char.isDigit)

/-- A point with digits behind it, or nothing. -/
def fractionPart? : List Char → Option (List Char × List Char)
  | '.' :: cs =>
    let digits := cs.takeWhile Char.isDigit
    if digits.isEmpty then none else some ('.' :: digits, cs.dropWhile Char.isDigit)
  | cs => some ([], cs)

/-- An exponent mark with an optional sign and digits behind it, or nothing. -/
def exponentPart? : List Char → Option (List Char × List Char)
  | [] => some ([], [])
  | mark :: cs =>
    if mark == 'e' || mark == 'E' then
      let (sign, cs) := match cs with
        | '+' :: cs => (['+'], cs)
        | '-' :: cs => (['-'], cs)
        | cs => ([], cs)
      let digits := cs.takeWhile Char.isDigit
      if digits.isEmpty then none else some (mark :: sign ++ digits, cs.dropWhile Char.isDigit)
    else some ([], mark :: cs)

/-- Reads a number behind its sign. -/
def readNumber? (negative : Bool) (cs : List Char) : Option (Json × List Char) := do
  let (whole, cs) ← wholePart? cs
  let (part, cs) ← fractionPart? cs
  let (exponent, cs) ← exponentPart? cs
  return (number ⟨negative, whole ++ part ++ exponent⟩, cs)

/-- What is left behind an expected word. -/
def expect? : (word cs : List Char) → Option (List Char)
  | [], cs => some cs
  | w :: word, c :: cs => if w = c then expect? word cs else none
  | _ :: _, [] => none

mutual

/-- Reads a value; blanks may stand before it.  A bound of two for every character is enough. -/
def readValue? (bound : Nat) (cs : List Char) : Option (Json × List Char) :=
  match bound with
  | 0 => none
  | bound + 1 =>
    match skip cs with
    | '\x7b' :: cs => do
      let (members, cs) ← readMembers? bound true cs
      return (object members, cs)
    | '[' :: cs => do
      let (items, cs) ← readItems? bound true cs
      return (array items, cs)
    | '"' :: cs => do
      let (units, cs) ← stringUnits cs
      return ((assemble? units).elim unpaired fun s => string (String.ofList s), cs)
    | '-' :: cs => readNumber? true cs
    | 'n' :: cs => (expect? ['u', 'l', 'l'] cs).map fun cs => (null, cs)
    | 't' :: cs => (expect? ['r', 'u', 'e'] cs).map fun cs => (bool true, cs)
    | 'f' :: cs => (expect? ['a', 'l', 's', 'e'] cs).map fun cs => (bool false, cs)
    | cs => readNumber? false cs

/-- Reads the items of an array up to and including the closing bracket, which may come at once only
before the first item. -/
def readItems? (bound : Nat) (isFirst : Bool) (cs : List Char) : Option (List Json × List Char) :=
  match bound with
  | 0 => none
  | bound + 1 =>
    match isFirst, skip cs with
    | true, ']' :: cs => some ([], cs)
    | _, cs => do
      let (item, cs) ← readValue? bound cs
      match skip cs with
      | ']' :: cs => return ([item], cs)
      | ',' :: cs =>
        let (items, cs) ← readItems? bound false cs
        return (item :: items, cs)
      | _ => none

/-- Reads the members of an object up to and including the closing brace, which may come at once
only before the first member. -/
def readMembers? (bound : Nat) (isFirst : Bool) (cs : List Char) :
    Option (List (String × Json) × List Char) :=
  match bound with
  | 0 => none
  | bound + 1 =>
    match isFirst, skip cs with
    | true, '\x7d' :: cs => some ([], cs)
    | _, '"' :: cs => do
      let (units, cs) ← stringUnits cs
      let name ← assemble? units
      match skip cs with
      | ':' :: cs =>
        let (value, cs) ← readValue? bound cs
        let member := (String.ofList name, value)
        match skip cs with
        | '\x7d' :: cs => return ([member], cs)
        | ',' :: cs =>
          let (members, cs) ← readMembers? bound false cs
          return (member :: members, cs)
        | _ => none
      | _ => none
    | _, _ => none

end

/-- Reads a text as one value, with nothing but blanks around it. -/
def parse? (text : String) : Option Json := do
  let cs := text.toList
  let (value, rest) ← readValue? (2 * cs.length + 1) cs
  if (skip rest).isEmpty then some value else none

end Json
end FormulaFit
