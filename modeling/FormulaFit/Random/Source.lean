/-!
# Random draws

Draws from any source of 32-bit words: a double of a symmetric interval, an index of a range, and
distinct indices of a list.  The draws follow fixed rules, so that a source with a seed gives the
same results everywhere.
-/

namespace FormulaFit

-- Powers of naturals are those of the core library, whatever else is imported.
attribute [local instance (high)] instPowNat

/-- A source of random 32-bit words. -/
class WordSource (σ : Type) where
  /-- The next word, and the source behind it. -/
  next : σ → UInt32 × σ

namespace Random

variable {σ : Type} [WordSource σ]

/-- The next 64-bit word; its low half is drawn first. -/
def word64 (source : σ) : UInt64 × σ :=
  let (low, source) := WordSource.next source
  let (high, source) := WordSource.next source
  (low.toUInt64 ||| high.toUInt64 <<< 32, source)

/-- The largest double below one that is a multiple of `2 ^ (-52)`. -/
def unitMax : Float := Float.ofBits 0x3fffffffffffffff - 1

/-- The bounds are near enough to each other for a draw between them: their distance is finite. -/
def isDrawable (low high : Float) : Bool := ((high - low) / unitMax).isFinite

/-- How often the width of an interval may have to be lowered by one unit in the last place. -/
def narrowings : Nat := 16

/-- The largest width not above the given one that does not lead beyond the upper end. -/
def narrow (low high : Float) : (steps : Nat) → (width : Float) → Float
  | 0, width => width
  | steps + 1, width =>
    if high < width * unitMax + low then narrow low high steps (Float.ofBits (width.toBits - 1))
    else width

/-- A double between two bounds near enough to each other, both of them possible. -/
def uniform (low high : Float) (source : σ) : Float × σ :=
  let width := narrow low high narrowings ((high - low) / unitMax)
  let (word, source) := word64 source
  let unit := Float.ofBits ((0x3ff0000000000000 : UInt64) ||| word >>> 12) - 1
  (unit * width + low, source)

/-- A double between two bounds; there is none if the bounds are too far apart. -/
def uniform? (low high : Float) (source : σ) : Option (Float × σ) :=
  if isDrawable low high then some (uniform low high source) else none

/-- Bits of a word, which has 32 of them unless it is wide. -/
def wordBits (wide : Bool) : Nat := if wide then 64 else 32

/-- The next word as a number. -/
def word (wide : Bool) (source : σ) : Nat × σ :=
  if wide then
    let (w, source) := word64 source
    (w.toNat, source)
  else
    let (w, source) := WordSource.next source
    (w.toNat, source)

/-- How many draws may be refused in a row before the next one is taken as it is. -/
def refusals : Nat := 256

/-- An index of a range of the given size: the high half of the product of a word and the size.
Words whose low half lies beyond the zone are refused, which makes all indices equally likely. -/
def indexWithin (wide : Bool) (size zone : Nat) : (refusals : Nat) → σ → Nat × σ
  | 0, source =>
    let (w, source) := word wide source
    (w * size / 2 ^ wordBits wide, source)
  | refusals + 1, source =>
    let (w, source) := word wide source
    let product := w * size
    if product % 2 ^ wordBits wide ≤ zone then (product / 2 ^ wordBits wide, source)
    else indexWithin wide size zone refusals source

/-- An index between the two bounds, both of them possible. -/
def index (low high : Nat) (source : σ) : Nat × σ :=
  let size := high - low + 1
  let (i, source) := indexWithin false size (size * 2 ^ (31 - size.log2) - 1) refusals source
  (low + i, source)

/-- An index below a length, with as few words refused as possible. -/
def indexBelow (length : Nat) (source : σ) : Nat × σ :=
  let wide := decide (2 ^ (32 : Nat) ≤ length)
  let words := 2 ^ wordBits wide
  indexWithin wide length (words - 1 - (words - length) % length) refusals source

/-- Adds one index for each further end of a range: the one drawn from the range, or its end if that
is there already. -/
def extend (chosen : List Nat) : (ends : List Nat) → σ → List Nat × σ
  | [], source => (chosen, source)
  | last :: ends, source =>
    let (drawn, source) := index 0 last source
    extend ((if chosen.contains drawn then last else drawn) :: chosen) ends source

/-- Draws an index below each of the numbers and forgets it, as an exchange of equals would. -/
def discard : List Nat → σ → σ
  | [], source => source
  | last :: rest, source => discard rest (index 0 last source).2

/-- Least number of indices that are exchanged once more after they are chosen. -/
def shuffleFrom : Nat := 50

/-- Chooses distinct indices by letting the range grow. -/
def growing (length amount : Nat) (source : σ) : List Nat × σ :=
  let (chosen, source) := extend [] (List.range' (length - amount) amount) source
  if amount < shuffleFrom then (chosen, source)
  else (chosen, discard ((List.range' 1 (amount - 1)).reverse) source)

/-- Chooses distinct indices by exchanging them to the front of the whole range. -/
def exchanging (length : Nat) (pool : Array Nat) : (positions : List Nat) → σ → Array Nat × σ
  | [], source => (pool, source)
  | i :: positions, source =>
    let (j, source) := index i (length - 1) source
    exchanging length (pool.swapIfInBounds i j) positions source

/-- The least index below a length that is not chosen yet. -/
def leastFree (length : Nat) (chosen : List Nat) : Nat :=
  ((List.range length).find? fun i => !chosen.contains i).getD 0

/-- An index that is not chosen yet: draws of chosen ones are refused. -/
def fresh (length : Nat) (chosen : List Nat) : (refusals : Nat) → σ → Nat × σ
  | 0, source => (leastFree length chosen, source)
  | refusals + 1, source =>
    let (i, source) := indexBelow length source
    if chosen.contains i then fresh length chosen refusals source else (i, source)

/-- Chooses some more distinct indices, refusing those that are chosen already. -/
def rejecting (length : Nat) (chosen : List Nat) : (amount : Nat) → σ → List Nat × σ
  | 0, source => (chosen, source)
  | amount + 1, source =>
    let (i, source) := fresh length chosen refusals source
    rejecting length (i :: chosen) amount source

/-- The ways to choose distinct indices. -/
inductive Choice where
  | growing | exchanging | rejecting

/-- How indices are chosen: a few by growth, or more from a long enough range; many by exchange, but
not from a range that is much longer still.  Lengths from half a million on are compared in single
precision. -/
def choice (length amount : Nat) : Choice :=
  if 2 ^ (32 : Nat) ≤ length then .rejecting
  else if amount < 163 then
    if amount ≤ 11 || (100 + 16 * amount) * amount ≤ 10 * length then .growing else .exchanging
  else if length < 500000 then
    if length < 270 * amount then .exchanging else .rejecting
  else if Float32.ofNat length < 330 / 9 * Float32.ofNat amount then .exchanging
  else .rejecting

/-- Distinct indices below a length. -/
def sample (length amount : Nat) (source : σ) : List Nat × σ :=
  match choice length amount with
  | .growing => growing length amount source
  | .exchanging =>
    let (pool, source) := exchanging length (Array.range length) (List.range amount) source
    ((pool.toList.take amount), source)
  | .rejecting => rejecting length [] amount source

end Random
end FormulaFit
