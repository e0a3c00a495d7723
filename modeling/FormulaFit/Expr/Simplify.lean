import FormulaFit.Deadline

/-!
# Simplification

`Expr.simplify` works on a formula bottom-up: it folds literal arithmetic through the same operators
that evaluation uses, flattens chains of one associative operator, drops neutral elements and
cancels equal operands.  Undefined arithmetic does not fail but folds to a degenerate symbol:
`1/0` to `zoo`, `log(0)` to `-oo`, `sqrt(-1)` to `I`.  The rules work on the arena of the new
formula: they look at the operands that are there and append what takes the place of the node, or
give the index of an operand that does.
-/

namespace FormulaFit

namespace Tree

variable {α : Type}

/-- A tree that is one literal. -/
def const (v : α) : Tree α := mk (.const v)

/-- A tree that is one symbol. -/
def ofSymbol (s : Symbol) : Tree α := mk (.symbol s)

variable [Scalar α]

/-- A scalar as a tree: a literal if it is finite, and the matching symbol otherwise. -/
def number (v : α) : Tree α :=
  match Symbol.ofNonFinite? v with
  | some s => ofSymbol s
  | none => const v

/-- The interval from minus one to one, which holds every value of an oscillation. -/
def oscillation : Tree α := mk (.bounds (const (-1)) (const 1))

/-- The value of an operator at a symbol, where it has one. -/
def unaryOfSymbol? (op : UnaryOp) (s : Symbol) : Option (Tree α) :=
  match op, s with
  | _, .nan => some (ofSymbol .nan)
  | .neg, .posInf => some (ofSymbol .negInf)
  | .neg, .negInf => some (ofSymbol .posInf)
  | .neg, .complexInf => some (ofSymbol .complexInf)
  | .sin, .posInf | .sin, .negInf | .cos, .posInf | .cos, .negInf => some oscillation
  | .sin, .complexInf | .cos, .complexInf | .exp, .complexInf => some (ofSymbol .nan)
  | .exp, .posInf => some (ofSymbol .posInf)
  | .exp, .negInf => some (const 0)
  | .log, .posInf | .sqrt, .posInf => some (ofSymbol .posInf)
  | .log, .negInf | .sqrt, .negInf => some (ofSymbol .complexInf)
  | .log, .complexInf | .abs, .complexInf => some (ofSymbol .posInf)
  | .abs, .posInf | .abs, .negInf => some (ofSymbol .posInf)
  | _, _ => none

/-- Folds an operator of one literal.  A root or logarithm outside the reals is imaginary. -/
def foldUnary (op : UnaryOp) (v : α) : Tree α :=
  let result := op.apply v
  if Scalar.isNaN result && (op = .sqrt || op = .log) then ofSymbol .imaginary else number result

/-- Folds an operator of two literals.  A quotient by zero is unbounded or undefined, and a power
outside the reals is imaginary. -/
def foldBinary (op : BinaryOp) (x y : α) : Tree α :=
  match op with
  | .sub => number (op.apply x y)
  | .div =>
    if Scalar.eq y 0 then ofSymbol (if Scalar.eq x 0 then .nan else .complexInf)
    else number (op.apply x y)
  | .pow =>
    if Scalar.eq x 0 && Scalar.lt y 0 then ofSymbol .complexInf
    else if Scalar.lt x 0 && !Scalar.isIntegral y then ofSymbol .imaginary
    else number (op.apply x y)

/-- The folded literals lead the operands unless they are neutral in a sum or product of others. -/
def isNeutral (op : NaryOp) (v : α) : Bool :=
  (op = .add || op = .mul) && Scalar.eq v op.identity

end Tree

namespace Arena

variable {α : Type}

/-- The symbol at an index. -/
def symbol? (arena : Arena α) (i : NodeId) : Option Symbol :=
  match arena[i]? with
  | some (.symbol s) => some s
  | _ => none

/-- No symbol, comparison or bounds is at an index or below it. -/
def isRegular (arena : Arena α) (i : NodeId) : Bool := (⟨arena, i⟩ : Expr α).fold fun n =>
  match n with
  | .symbol _ | .relation .. | .bounds .. => false
  | n => n.children.all id

variable [Scalar α]

/-- The finite literal at an index. -/
def literal? (arena : Arena α) (i : NodeId) : Option α := arena[i]?.bind Node.literal?

/-- A finite literal numerically equal to a value is at an index. -/
def isLiteral (arena : Arena α) (v : α) (i : NodeId) : Bool :=
  match arena.literal? i with
  | some w => Scalar.eq w v
  | none => false

/-- The operands at two indices are the same and stand for one number. -/
def cancels (arena : Arena α) (i j : NodeId) : Bool :=
  arena.isRegular i && (⟨arena, i⟩ : Expr α).same ⟨arena, j⟩

/-- Simplifies an operator of one simplified operand. -/
def simplifyUnary (op : UnaryOp) (a : NodeId) : StateM (Arena α) NodeId := do
  let arena ← get
  match arena.literal? a with
  | some v => (Tree.foldUnary op v).push
  | none =>
    match op, arena[a]? with
    | .neg, some (.unary .neg inner) => return inner
    | op, _ =>
      match (arena.symbol? a).bind (Tree.unaryOfSymbol? op) with
      | some t => t.push
      | none => push (.unary op a)

/-- Simplifies a difference of two simplified operands that are not both literals. -/
def simplifySub (a b : NodeId) : StateM (Arena α) NodeId := do
  let arena ← get
  if arena.isLiteral 0 b then return a
  else if arena.isLiteral 0 a then simplifyUnary .neg b
  else if arena.symbol? a = some .posInf && arena.symbol? b = some .posInf then push (.symbol .nan)
  else if arena.symbol? a = some .negInf && arena.symbol? b = some .negInf then push (.symbol .nan)
  else if arena.cancels a b then push (.const 0)
  else push (.binary .sub a b)

/-- Simplifies a quotient of two simplified operands that are not both literals. -/
def simplifyDiv (a b : NodeId) : StateM (Arena α) NodeId := do
  let arena ← get
  if arena.isLiteral 1 b then return a
  else if arena.isLiteral 0 b then do
    let unbounded ← push (.symbol .complexInf)
    push (.nary .mul [unbounded, a])
  else if arena.isLiteral 0 a && arena.isRegular b then push (.const 0)
  else if arena.cancels a b then push (.const 1)
  else push (.binary .div a b)

/-- Simplifies a power of two simplified operands that are not both literals. -/
def simplifyPow (a b : NodeId) : StateM (Arena α) NodeId := do
  let arena ← get
  if arena.isLiteral 1 b then return a
  else if arena.isLiteral 0 b || arena.isLiteral 1 a then push (.const 1)
  else push (.binary .pow a b)

/-- Simplifies an operator of two simplified operands. -/
def simplifyBinary (op : BinaryOp) (a b : NodeId) : StateM (Arena α) NodeId := do
  let arena ← get
  if arena.symbol? a = some .nan || arena.symbol? b = some .nan then push (.symbol .nan)
  else
    match arena.literal? a, arena.literal? b with
    | some x, some y => (Tree.foldBinary op x y).push
    | _, _ =>
      match op with
      | .sub => simplifySub a b
      | .div => simplifyDiv a b
      | .pow => simplifyPow a b

/-- The operands of an operator, with those of the same operator below it in its place. -/
def flatten (arena : Arena α) (op : NaryOp) (args : List NodeId) : List NodeId :=
  args.flatMap fun (i : NodeId) =>
    match arena[i]? with
    | some (.nary inner children) => if inner = op then children else [i]
    | _ => [i]

/-- An operator over operands; none give its identity, and a single one stands for itself. -/
def gather (op : NaryOp) : List NodeId → StateM (Arena α) NodeId
  | [] => push (.const op.identity)
  | [i] => return i
  | operands => push (.nary op operands)

/-- Combines the literals among flattened operands and puts the result before the rest. -/
def combine (op : NaryOp) (operands : List NodeId) : StateM (Arena α) NodeId := do
  let arena ← get
  let literals := operands.filterMap arena.literal?
  let rest := operands.filter fun i => (arena.literal? i).isNone
  let value := op.fold literals
  if literals.isEmpty then gather op rest
  else if op = .mul && Scalar.eq value 0 then
    push (if (operands.filterMap arena.symbol?).any Symbol.isUnbounded then .symbol .nan
      else .const 0)
  else if Tree.isNeutral op value && !rest.isEmpty then gather op rest
  else do
    let folded ← (Tree.number value).push
    gather op (folded :: rest)

/-- Simplifies an operator of any number of simplified operands. -/
def simplifyNary (op : NaryOp) (args : List NodeId) : StateM (Arena α) NodeId := do
  let arena ← get
  let operands := arena.flatten op args
  let symbols := operands.filterMap arena.symbol?
  if symbols.contains .nan then push (.symbol .nan)
  else if op = .add && symbols.contains .posInf && symbols.contains .negInf then
    push (.symbol .nan)
  else combine op operands

/-- Simplifies a comparison of two simplified operands; its truth is one and its falsity zero. -/
def simplifyRelation (op : Comparison) (a b : NodeId) : StateM (Arena α) NodeId := do
  let arena ← get
  match arena.literal? a, arena.literal? b with
  | some x, some y => push (.const (if op.holds x y then 1 else 0))
  | _, _ => push (.relation op a b)

/-- Simplifies a node over simplified children. -/
def reduce : Node α NodeId → StateM (Arena α) NodeId
  | .unary op a => simplifyUnary op a
  | .binary op a b => simplifyBinary op a b
  | .nary op args => simplifyNary op args
  | .relation op a b => simplifyRelation op a b
  | .const v => if Scalar.isFinite v then push (.const v) else (Tree.number v).push
  | n => push n

end Arena

/-- The simplified form of a stored formula; the deadline is checked at every node. -/
def Expr.simplify {α : Type} [Scalar α] (deadline : Deadline) (e : Expr α) :
    Except Error (Expr α) := do
  let simplified ← e.rebuildM fun n => do
    deadline.check
    modifyGet (Arena.reduce n)
  return simplified.compact

end FormulaFit
