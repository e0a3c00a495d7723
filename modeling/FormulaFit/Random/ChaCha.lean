import FormulaFit.Random.Source

/-!
# A seeded generator

The ChaCha stream cipher with eight rounds as a source of random words.  A seed is spread over the
key, and different streams of one seed are independent.  The generator is its key, its stream and
the number of words drawn so far.
-/

namespace FormulaFit
namespace ChaCha

/-- Four words that are worked on side by side. -/
structure Row where
  a : UInt32
  b : UInt32
  c : UInt32
  d : UInt32
deriving DecidableEq, Repr

namespace Row

/-- Applies a function of words side by side. -/
def zipWith (f : UInt32 → UInt32 → UInt32) (x y : Row) : Row :=
  ⟨f x.a y.a, f x.b y.b, f x.c y.c, f x.d y.d⟩

/-- Adds word by word. -/
def add : Row → Row → Row := zipWith (· + ·)

/-- Word to the left by some bits, and the bits that leave it on its other side. -/
def rotateWord (bits : UInt32) (w : UInt32) : UInt32 := w <<< bits ||| w >>> (32 - bits)

/-- Combines word by word and rotates the bits of every result. -/
def xorRotate (bits : UInt32) : Row → Row → Row := zipWith fun x y => rotateWord bits (x ^^^ y)

/-- Moves every word one place to the front. -/
def turn (x : Row) : Row := ⟨x.b, x.c, x.d, x.a⟩

/-- The words in order. -/
def toList (x : Row) : List UInt32 := [x.a, x.b, x.c, x.d]

end Row

/-- The state of a block: four rows. -/
structure Block where
  w : Row
  x : Row
  y : Row
  z : Row
deriving DecidableEq, Repr

namespace Block

/-- Four quarter rounds at once, one for each column. -/
def columnRound (s : Block) : Block :=
  let w := s.w.add s.x
  let z := s.z.xorRotate 16 w
  let y := s.y.add z
  let x := s.x.xorRotate 12 y
  let w := w.add x
  let z := z.xorRotate 8 w
  let y := y.add z
  let x := x.xorRotate 7 y
  ⟨w, x, y, z⟩

/-- Shifts the rows so that diagonals become columns. -/
def skew (s : Block) : Block := ⟨s.w, s.x.turn, s.y.turn.turn, s.z.turn.turn.turn⟩

/-- Shifts the rows back. -/
def unskew (s : Block) : Block := ⟨s.w, s.x.turn.turn.turn, s.y.turn.turn, s.z.turn⟩

/-- A round on the columns and a round on the diagonals. -/
def doubleRound (s : Block) : Block := s.columnRound.skew.columnRound.unskew

/-- Four double rounds, added to the state they started from. -/
def output (s : Block) : Block :=
  let t := s.doubleRound.doubleRound.doubleRound.doubleRound
  ⟨t.w.add s.w, t.x.add s.x, t.y.add s.y, t.z.add s.z⟩

/-- The words in order. -/
def toList (s : Block) : List UInt32 := s.w.toList ++ s.x.toList ++ s.y.toList ++ s.z.toList

end Block

/-- The constant first row. -/
def constants : Row := ⟨0x61707865, 0x3320646e, 0x79622d32, 0x6b206574⟩

/-- A generator of random words. -/
structure Generator where
  /-- First half of the key. -/
  low : Row
  /-- Second half of the key. -/
  high : Row
  /-- Number of the stream. -/
  stream : UInt64
  /-- Number of words drawn. -/
  position : Nat
deriving DecidableEq, Repr

/-- The block of a generator with a number. -/
def Generator.block (g : Generator) (number : UInt64) : Block :=
  Block.output ⟨constants, g.low, g.high,
    ⟨number.toUInt32, (number >>> 32).toUInt32, g.stream.toUInt32, (g.stream >>> 32).toUInt32⟩⟩

/-- The word at a position of the sequence. -/
def Generator.word (g : Generator) (position : Nat) : UInt32 :=
  (g.block (UInt64.ofNat (position / 16))).toList.getD (position % 16) 0

instance : WordSource Generator where
  next g := (g.word g.position, { g with position := g.position + 1 })

/-- The next state of the linear generator that spreads a seed. -/
def spreadNext (s : UInt64) : UInt64 := s * 6364136223846793005 + 11634580027462260723

/-- The word of the key that a state of the linear generator gives. -/
def spreadWord (s : UInt64) : UInt32 :=
  let word := (((s >>> 18) ^^^ s) >>> 27).toUInt32
  let bits := (s >>> 59).toUInt32
  word >>> bits ||| word <<< ((32 - bits) % 32)

/-- Four words of the key, and the state behind them. -/
def spreadRow (s : UInt64) : Row × UInt64 :=
  let s₁ := spreadNext s
  let s₂ := spreadNext s₁
  let s₃ := spreadNext s₂
  let s₄ := spreadNext s₃
  (⟨spreadWord s₁, spreadWord s₂, spreadWord s₃, spreadWord s₄⟩, s₄)

/-- The generator of a seed and a stream. -/
def Generator.ofSeed (seed stream : UInt64) : Generator :=
  let (low, s) := spreadRow seed
  let (high, _) := spreadRow s
  ⟨low, high, stream, 0⟩

end ChaCha
end FormulaFit
