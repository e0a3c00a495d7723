import FormulaFit.Expr.Basic
import FormulaFit.Json.Reader
import FormulaFit.Json.Writer

/-!
# Stored formulas as JSON

A formula is a record of its nodes and its root; a node is an object with one member, its kind.
Literals are written as numbers, and since JSON has none that is infinite or undefined, a formula
with such a literal is written but not read back.  An index of a node is a 32-bit word.
-/

namespace FormulaFit

/-- The element of a list that has a tag. -/
def ofTag? {α : Type} (all : List α) (tag : α → String) (j : Json) : Option α := do
  let name ← j.tag?
  all.find? fun a => tag a == name

namespace Node

/-- The JSON form of an index. -/
def idJson (id : NodeId) : Json := .ofNat id

/-- The JSON form of a node. -/
def toJson : Node Float NodeId → Json
  | const v => .object [("Const", .ofFloat v)]
  | var i => .object [("Var", .ofNat i.toNat)]
  | param i => .object [("Param", .ofNat i.toNat)]
  | symbol s => .object [("Symbol", .string s.tag)]
  | unary op a => .object [("Unary", .array [.string op.tag, idJson a])]
  | binary op a b => .object [("Binary", .array [.string op.tag, idJson a, idJson b])]
  | nary op args => .object [("Nary", .array [.string op.tag, .array (args.map idJson)])]
  | relation op a b => .object [("Relational", .array [.string op.tag, idJson a, idJson b])]
  | bounds a b => .object [("Bounds", .array [idJson a, idJson b])]
  | call name args =>
    .object [("Opaque", .object [("name", .string name), ("args", .array (args.map idJson))])]

/-- Reads an index. -/
def id? (j : Json) : Option NodeId := j.natBelow? UInt32.size

/-- Reads a list of indices. -/
def ids? (j : Json) : Option (List NodeId) := do (← j.items?).mapM id?

/-- Reads the content of a node of a kind. -/
def ofKind? (kind : String) (content : Json) : Option (Node Float NodeId) :=
  match kind, content with
  | "Const", v => v.float?.map const
  | "Var", i => i.word?.map var
  | "Param", i => i.word?.map param
  | "Symbol", s => (ofTag? Symbol.all Symbol.tag s).map symbol
  | "Unary", .array [op, a] => do
    return unary (← ofTag? UnaryOp.all UnaryOp.tag op) (← id? a)
  | "Binary", .array [op, a, b] => do
    return binary (← ofTag? BinaryOp.all BinaryOp.tag op) (← id? a) (← id? b)
  | "Nary", .array [op, args] => do
    return nary (← ofTag? NaryOp.all NaryOp.tag op) (← ids? args)
  | "Relational", .array [op, a, b] => do
    return relation (← ofTag? Comparison.all Comparison.tag op) (← id? a) (← id? b)
  | "Bounds", .array [a, b] => do return bounds (← id? a) (← id? b)
  | "Opaque", fields => do
    match ← fields.record? false ["name", "args"] with
    | [some name, some args] => return call (← name.string?) (← ids? args)
    | _ => none
  | _, _ => none

/-- Reads a node. -/
def ofJson? (j : Json) : Option (Node Float NodeId) := do
  let (kind, content) ← j.variant?
  ofKind? kind content

end Node

namespace Expr

/-- The JSON form of a formula. -/
def toJson (e : Expr Float) : Json :=
  .object [("nodes", .array (e.nodes.toList.map Node.toJson)), ("root", Node.idJson e.root)]

/-- Reads a formula; it need not be valid. -/
def ofJson? (j : Json) : Option (Expr Float) := do
  match ← j.record? false ["nodes", "root"] with
  | [some nodes, some root] =>
    let nodes ← (← nodes.items?).mapM Node.ofJson?
    return ⟨nodes.toArray, ← Node.id? root⟩
  | _ => none

/-- Writes a formula as a JSON text. -/
def jsonText (e : Expr Float) : String := e.toJson.text

/-- Reads a formula from a JSON text; it need not be valid. -/
def ofJsonText? (text : String) : Option (Expr Float) := (Json.parse? text).bind ofJson?

end Expr

end FormulaFit
