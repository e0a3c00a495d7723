import FormulaFit.Expr.Simplify
import FormulaFit.Formula.Printer

/-!
# Sanitization

`Expr.sanitize` repairs a formula until nothing in it is degenerate: simplification and the
replacement of degenerate parts by literals take turns, since each can bring about work for the
other.  After a fixed number of turns the replaced form is final.
-/

namespace FormulaFit

/-- How formulas are repaired. -/
structure SanitizePolicy where
  /-- Time limit of all simplifications together, in milliseconds. -/
  simplifyTimeoutMs : Nat
  /-- Literal that replaces a degenerate part. -/
  placeholder : Float
deriving DecidableEq, Repr

namespace Tree

variable {α : Type} [Scalar α]

/-- The literal that replaces the circle number. -/
def piLiteral : α := Scalar.ofDecimal 31415927 7

/-- The literal that replaces a node, if it is a symbol or degenerate. -/
def replacement? {β : Type} (placeholder : α) : Node α β → Option α
  | .symbol .pi => some piLiteral
  | n => if n.isDegenerate then some placeholder else none

end Tree

namespace Expr

/-- Replaces symbols and degenerate parts by literals, and says whether there were any. -/
def substitute {α : Type} [Scalar α] (placeholder : α) (e : Expr α) : Expr α × Bool :=
  let replaceAll : StateM Bool (Expr α) := e.rebuildM fun n =>
    match Tree.replacement? placeholder n with
    | some v => do
      StateT.lift (set true)
      modifyGet (Arena.push (.const v))
    | none => modifyGet (Arena.push n)
  let (replaced, changed) := replaceAll false
  (replaced.compact, changed)

/-- The simplified form, or the formula as it is once the deadline has passed. -/
def simplifyOrKeep {α : Type} [Scalar α] (deadline : Deadline) (e : Expr α) : Expr α :=
  match e.simplify deadline with
  | .ok simplified => simplified
  | .error _ => e.compact

/-- Turns of simplification and replacement. -/
def sanitizeTurns : Nat := 8

/-- Lets a repaired formula pass, provided that it is valid and nothing in it is degenerate. -/
def finish (e : Expr Float) : Except Error (Expr Float) := do
  e.validate.mapError fun fault => .unsanitizable (.invalid fault)
  if e.hasDegenerate then throw (.unsanitizable (.degenerateLeft e.display))
  return e

/-- Lets replacement and simplification take turns until there is nothing to replace. -/
def settle (deadline : Deadline) (placeholder : Float) :
    (turns : Nat) → Expr Float → Except Error (Expr Float)
  | 0, e => finish (e.substitute placeholder).1
  | turns + 1, e =>
    let (substituted, changed) := e.substitute placeholder
    if changed then settle deadline placeholder turns (simplifyOrKeep deadline substituted)
    else finish e

/-- A formula equivalent to the given one with nothing degenerate in it.  Only an invalid formula
and one with free coefficients fail; a simplification that takes too long is left out. -/
def sanitize (policy : SanitizePolicy) (e : Expr Float) : Except Error (Expr Float) := do
  e.validate.mapError fun fault => .unsanitizable (.invalid fault)
  if 0 < e.paramCount then throw (.unsanitizable (.unboundParameters e.display))
  let deadline : Deadline := ⟨.simplify, policy.simplifyTimeoutMs⟩
  settle deadline policy.placeholder sanitizeTurns (simplifyOrKeep deadline e)

end Expr

end FormulaFit
