import FormulaFit.Decimal.Layout
import FormulaFit.Expr.Basic

/-!
# Writing formulas

The text of a formula.  The operands of signs, sums, products, powers and comparisons are put in
parentheses unless they are atoms; the arguments of calls are not.
-/

namespace FormulaFit
namespace Formula

/-- The text of a formula, and whether it can stand as an operand by itself. -/
structure Printed where
  text : String
  /-- No parentheses are due around the text of an operand. -/
  isAtom : Bool
deriving DecidableEq, Repr

/-- The text as an operand. -/
def Printed.operand (p : Printed) : String := if p.isAtom then p.text else "(" ++ p.text ++ ")"

/-- Operands with a sign between them. -/
def joined (separator : String) (operands : List Printed) : String :=
  separator.intercalate (operands.map Printed.operand)

/-- A call of a function. -/
def called (name : String) (args : List Printed) : String :=
  name ++ "(" ++ ", ".intercalate (args.map Printed.text) ++ ")"

/-- Writes a node over its written children. -/
def printNode : Node Float Printed → Printed
  | .const v => ⟨Decimal.Layout.literal.render v, !Double.isNegative v⟩
  | .var i => ⟨s!"x_{i.toNat}", true⟩
  | .param i => ⟨s!"C_{i.toNat}", true⟩
  | .symbol s => ⟨s.name, s ≠ .negInf⟩
  | .unary .neg a => ⟨UnaryOp.neg.name ++ a.operand, false⟩
  | .unary op a => ⟨called op.name [a], true⟩
  | .binary op a b => ⟨joined op.separator [a, b], false⟩
  | .nary .add args => ⟨joined " + " args, false⟩
  | .nary .mul args => ⟨joined "*" args, false⟩
  | .nary .max args => ⟨called "max" args, true⟩
  | .nary .min args => ⟨called "min" args, true⟩
  | .relation op a b => ⟨joined op.separator [a, b], false⟩
  | .bounds a b => ⟨called "AccumBounds" [a, b], true⟩
  | .call name args => ⟨called name args, true⟩

end Formula

/-- The text of a formula. -/
def Expr.display (e : Expr Float) : String := (e.fold Formula.printNode).text

end FormulaFit
