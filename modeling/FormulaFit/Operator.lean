import FormulaFit.Scalar

/-!
# Operators and named values

The operators a formula is built from, each with its tag (the name stored data uses), its spelling
in formula text and its meaning over any scalars.  Evaluation, folding of literals and
differentiation all go through the meanings given here.
-/

namespace FormulaFit

/-- Values a formula can name.  All but `pi` are degenerate: they have no finite real value. -/
inductive Symbol where
  | pi
  | posInf
  | negInf
  /-- Infinity without a direction. -/
  | complexInf
  /-- The imaginary unit; it stands for any result outside the reals. -/
  | imaginary
  /-- An undefined result. -/
  | nan
deriving DecidableEq, Repr

namespace Symbol

/-- Every symbol. -/
def all : List Symbol := [pi, posInf, negInf, complexInf, imaginary, nan]

/-- Name in stored data. -/
def tag : Symbol → String
  | pi => "Pi"
  | posInf => "Infinity"
  | negInf => "NegInfinity"
  | complexInf => "ComplexInfinity"
  | imaginary => "ImaginaryUnit"
  | nan => "NaN"

/-- Spelling in formula text. -/
def name : Symbol → String
  | pi => "pi"
  | posInf => "oo"
  | negInf => "-oo"
  | complexInf => "zoo"
  | imaginary => "I"
  | nan => "nan"

/-- The symbol has an infinite magnitude. -/
def isUnbounded : Symbol → Bool
  | posInf | negInf | complexInf => true
  | pi | imaginary | nan => false

/-- The symbol of a scalar that is not finite; none of a finite one. -/
def ofNonFinite? {α : Type} [Scalar α] (v : α) : Option Symbol :=
  if Scalar.isNaN v then some nan
  else if Scalar.eq v Scalar.posInf then some posInf
  else if Scalar.eq v Scalar.negInf then some negInf
  else none

end Symbol

/-- Operators of one operand. -/
inductive UnaryOp where
  | neg | sin | cos | log | sqrt | exp | abs
deriving DecidableEq, Repr

namespace UnaryOp

/-- Every operator of one operand. -/
def all : List UnaryOp := [neg, sin, cos, log, sqrt, exp, abs]

/-- Name in stored data. -/
def tag : UnaryOp → String
  | neg => "Neg"
  | sin => "Sin"
  | cos => "Cos"
  | log => "Log"
  | sqrt => "Sqrt"
  | exp => "Exp"
  | abs => "Abs"

/-- Spelling in formula text: a sign, or the name of a function. -/
def name : UnaryOp → String
  | neg => "-"
  | sin => "sin"
  | cos => "cos"
  | log => "log"
  | sqrt => "sqrt"
  | exp => "exp"
  | abs => "abs"

/-- Meaning; a result outside the finite scalars is left to the caller. -/
def apply {α : Type} [Scalar α] : UnaryOp → α → α
  | neg, a => -a
  | sin, a => Scalar.sin a
  | cos, a => Scalar.cos a
  | log, a => Scalar.log a
  | sqrt, a => Scalar.sqrt a
  | exp, a => Scalar.exp a
  | abs, a => Scalar.abs a

end UnaryOp

/-- Operators of two operands. -/
inductive BinaryOp where
  | sub | div | pow
deriving DecidableEq, Repr

namespace BinaryOp

/-- Every operator of two operands. -/
def all : List BinaryOp := [sub, div, pow]

/-- Name in stored data. -/
def tag : BinaryOp → String
  | sub => "Sub"
  | div => "Div"
  | pow => "Pow"

/-- Spelling between two operands. -/
def separator : BinaryOp → String
  | sub => " - "
  | div => "/"
  | pow => "**"

/-- Meaning; division by zero follows the scalars. -/
def apply {α : Type} [Scalar α] : BinaryOp → α → α → α
  | sub, a, b => a - b
  | div, a, b => a / b
  | pow, a, b => Scalar.pow a b

end BinaryOp

/-- Operators of any number of operands. -/
inductive NaryOp where
  | add | mul | max | min
deriving DecidableEq, Repr

namespace NaryOp

/-- Every operator of any number of operands. -/
def all : List NaryOp := [add, mul, max, min]

/-- Name in stored data. -/
def tag : NaryOp → String
  | add => "Add"
  | mul => "Mul"
  | max => "Max"
  | min => "Min"

/-- Value of no operands. -/
def identity {α : Type} [Scalar α] : NaryOp → α
  | add => 0
  | mul => 1
  | max => Scalar.negInf
  | min => Scalar.posInf

/-- Meaning for one more operand. -/
def combine {α : Type} [Scalar α] : NaryOp → α → α → α
  | add, acc, v => acc + v
  | mul, acc, v => acc * v
  | max, acc, v => Scalar.max acc v
  | min, acc, v => Scalar.min acc v

/-- Meaning: the operands are combined from the left, starting at the identity. -/
def fold {α : Type} [Scalar α] (op : NaryOp) (values : List α) : α :=
  values.foldl op.combine op.identity

end NaryOp

/-- Comparisons. -/
inductive Comparison where
  | lt | le | gt | ge | eq | ne
deriving DecidableEq, Repr

namespace Comparison

/-- Every comparison. -/
def all : List Comparison := [lt, le, gt, ge, eq, ne]

/-- Name in stored data. -/
def tag : Comparison → String
  | lt => "Lt"
  | le => "Le"
  | gt => "Gt"
  | ge => "Ge"
  | eq => "Eq"
  | ne => "Ne"

/-- Sign of the comparison. -/
def sign : Comparison → String
  | lt => "<"
  | le => "<="
  | gt => ">"
  | ge => ">="
  | eq => "=="
  | ne => "!="

/-- Spelling between two operands. -/
def separator (comparison : Comparison) : String := " " ++ comparison.sign ++ " "

/-- Meaning. -/
def holds {α : Type} [Scalar α] : Comparison → α → α → Bool
  | lt, a, b => Scalar.lt a b
  | le, a, b => Scalar.le a b
  | gt, a, b => Scalar.lt b a
  | ge, a, b => Scalar.le b a
  | eq, a, b => Scalar.eq a b
  | ne, a, b => !Scalar.eq a b

end Comparison

end FormulaFit
