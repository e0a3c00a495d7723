import FormulaFit.Expr.Basic
import FormulaFit.Formula.Lexeme

/-!
# Reading formulas

A formula is an optional comparison of two sums.  Sums and products associate to the left, except
that maximal runs of `+` or of `*` form one node; a sign binds looser than a power, and a power
associates to the right.  Every operand of a product passes through `operand`, which takes one of
the allowed levels of nesting, so reading is structural in the level, and at one level in the number
of lexemes that are left.  A reader appends the nodes of what it reads to the arena as it goes, and
never takes one back.
-/

namespace FormulaFit
namespace Formula

/-- A lexeme where another was due. -/
def unexpected (l : Lexeme) : ParseError := .unexpectedToken l.text l.position

/-- Functions of one argument. -/
def unaryFunction? : String → Option UnaryOp
  | "sin" => some .sin
  | "cos" => some .cos
  | "log" | "ln" => some .log
  | "sqrt" => some .sqrt
  | "exp" => some .exp
  | "abs" | "Abs" => some .abs
  | _ => none

/-- Functions of one or more arguments. -/
def naryFunction? : String → Option NaryOp
  | "max" | "Max" => some .max
  | "min" | "Min" => some .min
  | _ => none

/-- The index in a name made of a letter, an underscore and digits, if it is a 64-bit word. -/
def index? (letter : Char) (name : String) : Option UInt64 :=
  match name.toList with
  | c :: '_' :: digits =>
    let value := Decimal.ofDigits digits
    if c = letter && !digits.isEmpty && digits.all Char.isDigit && value < UInt64.size then
      some (UInt64.ofNat value)
    else none
  | _ => none

/-- The base of the natural logarithm as the nearest double. -/
def eulerNumber : Float := Float.ofBits 0x4005bf0a8b145769

/-- The node that a name by itself stands for; it has no children. -/
def atom? {β : Type} (name : String) : Option (Node Float β) :=
  match index? 'x' name, index? 'C' name with
  | some i, _ => some (.var i)
  | none, some i => some (.param i)
  | none, none =>
    match name with
    | "pi" => some (.symbol .pi)
    | "oo" => some (.symbol .posInf)
    | "zoo" => some (.symbol .complexInf)
    | "I" => some (.symbol .imaginary)
    | "nan" | "NaN" => some (.symbol .nan)
    | "E" => some (.const eulerNumber)
    | _ => none

/-- The sign of a power is due next. -/
def powerFollows : List Lexeme → Bool
  | ⟨.power, _, _⟩ :: _ => true
  | _ => false

/-- The literal that a minus forms with the lexemes behind it: a minus directly before a number or
infinity belongs to it, unless that is the base of a power. -/
def negativeLiteral? {β : Type} : List Lexeme → Option (Node Float β × List Lexeme)
  | ⟨.number v, _, _⟩ :: rest =>
    if powerFollows rest then none else some (.const (-v), rest)
  | ⟨.name name, _, _⟩ :: rest =>
    if name ≠ "oo" || powerFollows rest then none else some (.symbol .negInf, rest)
  | _ => none

end Formula

namespace Parser

open Formula (unexpected unaryFunction? naryFunction? atom? negativeLiteral?)

/-- What appends nodes to an arena, or fails. -/
abbrev Builder : Type → Type := StateT (Arena Float) (Except ParseError)

/-- Reads something from the start of the lexemes and gives it with the lexemes that are left. -/
abbrev Reader (α : Type) : Type := List Lexeme → Builder (α × List Lexeme)

/-- Appends a node and gives its index. -/
def push (n : Node Float NodeId) : Builder NodeId := modifyGet (Arena.push n)

/-- One operand by itself, or all of them under an operator. -/
def close (op : NaryOp) : List NodeId → Builder NodeId
  | [i] => return i
  | chain => push (.nary op chain)

/-- Continues a product behind the factors read since the last division.  Every factor takes at
least one lexeme, so a bound of as many factors as there are lexemes left does not end it early. -/
def productTail (factor : Reader NodeId) : (bound : Nat) → (chain : List NodeId) → Reader NodeId
  | bound + 1, chain, ⟨.star, _, _⟩ :: ls => do
    let (i, rest) ← factor ls
    productTail factor bound (chain ++ [i]) rest
  | bound + 1, chain, ⟨.slash, _, _⟩ :: ls => do
    let dividend ← close .mul chain
    let (divisor, rest) ← factor ls
    let quotient ← push (.binary .div dividend divisor)
    productTail factor bound [quotient] rest
  | _, chain, ls => do return (← close .mul chain, ls)

/-- Reads factors joined by `*` and `/`. -/
def product (factor : Reader NodeId) : Reader NodeId := fun ls => do
  let (first, rest) ← factor ls
  productTail factor rest.length [first] rest

/-- Continues a sum behind the summands read since the last subtraction, as `productTail` does. -/
def sumTail (summand : Reader NodeId) : (bound : Nat) → (chain : List NodeId) → Reader NodeId
  | bound + 1, chain, ⟨.plus, _, _⟩ :: ls => do
    let (i, rest) ← summand ls
    sumTail summand bound (chain ++ [i]) rest
  | bound + 1, chain, ⟨.minus, _, _⟩ :: ls => do
    let minuend ← close .add chain
    let (subtrahend, rest) ← summand ls
    let difference ← push (.binary .sub minuend subtrahend)
    sumTail summand bound [difference] rest
  | _, chain, ls => do return (← close .add chain, ls)

/-- Reads summands joined by `+` and `-`. -/
def sum (summand : Reader NodeId) : Reader NodeId := fun ls => do
  let (first, rest) ← summand ls
  sumTail summand rest.length [first] rest

/-- Reads one side, or two with a comparison between them. -/
def comparison (side : Reader NodeId) : Reader NodeId := fun ls => do
  let (left, rest) ← side ls
  match rest with
  | ⟨.relation op, _, _⟩ :: ls => do
    let (right, rest) ← side ls
    return (← push (.relation op left right), rest)
  | rest => return (left, rest)

/-- Reads a whole formula whose operands are read by `operand`. -/
def formula (operand : Reader NodeId) : Reader NodeId := comparison (sum (product operand))

/-- Continues the arguments of a call behind those read so far, up to and including the closing
parenthesis.  Every argument takes at least one lexeme, as in `productTail`. -/
def argumentsTail (argument : Reader NodeId) :
    (bound : Nat) → (args : List NodeId) → Reader (List NodeId)
  | _, args, ⟨.rightParen, _, _⟩ :: ls => return (args, ls)
  | bound + 1, args, ⟨.comma, _, _⟩ :: ls => do
    let (i, rest) ← argument ls
    argumentsTail argument bound (args ++ [i]) rest
  | _, _, l :: _ => throw (unexpected l)
  | _, _, [] => throw .unexpectedEnd

/-- Reads the arguments of a call behind its opening parenthesis. -/
def arguments (argument : Reader NodeId) : Reader (List NodeId)
  | ⟨.rightParen, _, _⟩ :: rest => return ([], rest)
  | ls => do
    let (first, rest) ← argument ls
    argumentsTail argument rest.length [first] rest

/-- Appends a call of some arguments; a function outside the vocabulary takes any number of them. -/
def call (name : String) (args : List NodeId) : Builder NodeId :=
  match unaryFunction? name, naryFunction? name with
  | some op, _ =>
    match args with
    | [a] => push (.unary op a)
    | _ => throw (.arity name 1 args.length)
  | none, some op =>
    if args.isEmpty then throw (.arity name 1 0) else close op args
  | none, none =>
    if name = "clip" then
      match args with
      | [value, low, high] => do
        let floor ← push (.nary .max [value, low])
        push (.nary .min [floor, high])
      | _ => throw (.arity name 3 args.length)
    else if name = "AccumBounds" then
      match args with
      | [low, high] => push (.bounds low high)
      | _ => throw (.arity name 2 args.length)
    else push (.call name args)

/-- Appends what a name by itself stands for. -/
def atom (name : String) (position : Nat) : Builder NodeId :=
  match atom? name with
  | some n => push n
  | none => throw (.unknownSymbol name position)

/-- Reads a literal, a name, a call or a formula in parentheses. -/
def primary (operand : Reader NodeId) : Reader NodeId
  | [] => throw .unexpectedEnd
  | ⟨.number v, _, _⟩ :: rest => do return (← push (.const v), rest)
  | ⟨.leftParen, _, _⟩ :: ls => do
    let (i, rest) ← formula operand ls
    match rest with
    | ⟨.rightParen, _, _⟩ :: rest => return (i, rest)
    | l :: _ => throw (unexpected l)
    | [] => throw .unexpectedEnd
  | ⟨.name name, _, _⟩ :: ⟨.leftParen, _, _⟩ :: ls => do
    let (args, rest) ← arguments (formula operand) ls
    return (← call name args, rest)
  | ⟨.name name, position, _⟩ :: rest => do return (← atom name position, rest)
  | l :: _ => throw (unexpected l)

/-- Reads a primary, raised to an operand if a power follows. -/
def power (operand : Reader NodeId) : Reader NodeId := fun ls => do
  let (base, rest) ← primary operand ls
  match rest with
  | ⟨.power, _, _⟩ :: ls => do
    let (exponent, rest) ← operand ls
    return (← push (.binary .pow base exponent), rest)
  | rest => return (base, rest)

/-- Reads an operand with any signs before it. -/
def signed (operand : Reader NodeId) : Reader NodeId
  | ⟨.plus, _, _⟩ :: ls => operand ls
  | ⟨.minus, _, _⟩ :: ls =>
    match negativeLiteral? ls with
    | some (n, rest) => do return (← push n, rest)
    | none => do
      let (i, rest) ← operand ls
      return (← push (.unary .neg i), rest)
  | ls => power operand ls

/-- Reads an operand with a number of levels of nesting left. -/
def operand : (level : Nat) → Reader NodeId
  | 0 => fun _ => throw (.tooDeep depthLimit)
  | level + 1 => signed (operand level)

/-- Reads lexemes as one formula. -/
def ofLexemes? (ls : List Lexeme) : Except ParseError (Expr Float) := do
  let ((root, rest), nodes) ← formula (operand depthLimit) ls #[]
  match rest with
  | l :: _ => throw (.trailing l.position)
  | [] =>
    let e : Expr Float := ⟨nodes, root⟩
    if depthLimit < e.depth then throw (.tooDeep depthLimit) else return e

end Parser

/-- Reads a text as a formula. -/
def Formula.parse (text : String) : Except ParseError (Expr Float) := do
  let ls ← Lexeme.ofText? text
  Parser.ofLexemes? ls

end FormulaFit
