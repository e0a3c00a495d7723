import FormulaFit.Formula.Parser
import FormulaFit.Proofs.Arena.Walks
import FormulaFit.Proofs.Formula.Terms

/-!
# Reading terms

The readers of the parser once more, without an arena: each gives the term of what it reads.  The
parser appends the nodes of that term, in the same order, and fails where reading the term fails.
So what is parsed is the stored term, and what is proved about reading terms holds of the parser.
-/

namespace FormulaFit
namespace Formula

/-- Reads something from the start of the lexemes and gives it with the lexemes that are left. -/
abbrev Reader (α : Type) : Type := List Lexeme → Except ParseError (α × List Lexeme)

/-- One operand by itself, or all of them under an operator. -/
def close (op : NaryOp) : List Term → Term
  | [t] => t
  | chain => .node (.nary op chain)

/-- Continues a product behind the factors read since the last division.  Every factor takes at
least one lexeme, so a bound of as many factors as there are lexemes left does not end it early. -/
def productTail (factor : Reader Term) : (bound : Nat) → (chain : List Term) → Reader Term
  | bound + 1, chain, ⟨.star, _, _⟩ :: ls => do
    let (t, rest) ← factor ls
    productTail factor bound (chain ++ [t]) rest
  | bound + 1, chain, ⟨.slash, _, _⟩ :: ls => do
    let (t, rest) ← factor ls
    productTail factor bound [.node (.binary .div (close .mul chain) t)] rest
  | _, chain, ls => .ok (close .mul chain, ls)

/-- Reads factors joined by `*` and `/`. -/
def product (factor : Reader Term) : Reader Term := fun ls => do
  let (first, rest) ← factor ls
  productTail factor rest.length [first] rest

/-- Continues a sum behind the summands read since the last subtraction, as `productTail` does. -/
def sumTail (summand : Reader Term) : (bound : Nat) → (chain : List Term) → Reader Term
  | bound + 1, chain, ⟨.plus, _, _⟩ :: ls => do
    let (t, rest) ← summand ls
    sumTail summand bound (chain ++ [t]) rest
  | bound + 1, chain, ⟨.minus, _, _⟩ :: ls => do
    let (t, rest) ← summand ls
    sumTail summand bound [.node (.binary .sub (close .add chain) t)] rest
  | _, chain, ls => .ok (close .add chain, ls)

/-- Reads summands joined by `+` and `-`. -/
def sum (summand : Reader Term) : Reader Term := fun ls => do
  let (first, rest) ← summand ls
  sumTail summand rest.length [first] rest

/-- Reads one side, or two with a comparison between them. -/
def comparison (side : Reader Term) : Reader Term := fun ls => do
  let (left, rest) ← side ls
  match rest with
  | ⟨.relation op, _, _⟩ :: ls =>
    let (right, rest) ← side ls
    return (.node (.relation op left right), rest)
  | rest => return (left, rest)

/-- Reads a whole formula whose operands are read by `operand`. -/
def formula (operand : Reader Term) : Reader Term := comparison (sum (product operand))

/-- Continues the arguments of a call behind those read so far, up to and including the closing
parenthesis.  Every argument takes at least one lexeme, as in `productTail`. -/
def argumentsTail (argument : Reader Term) : (bound : Nat) → (args : List Term) → Reader (List Term)
  | _, args, ⟨.rightParen, _, _⟩ :: ls => .ok (args, ls)
  | bound + 1, args, ⟨.comma, _, _⟩ :: ls => do
    let (t, rest) ← argument ls
    argumentsTail argument bound (args ++ [t]) rest
  | _, _, l :: _ => throw (unexpected l)
  | _, _, [] => throw .unexpectedEnd

/-- Reads the arguments of a call behind its opening parenthesis. -/
def arguments (argument : Reader Term) : Reader (List Term)
  | ⟨.rightParen, _, _⟩ :: rest => return ([], rest)
  | ls => do
    let (first, rest) ← argument ls
    argumentsTail argument rest.length [first] rest

/-- The term of a call; a function outside the vocabulary takes any number of arguments. -/
def call (name : String) (args : List Term) : Except ParseError Term :=
  match unaryFunction? name, naryFunction? name with
  | some op, _ =>
    match args with
    | [a] => .ok (.node (.unary op a))
    | _ => .error (.arity name 1 args.length)
  | none, some op =>
    if args.isEmpty then .error (.arity name 1 0) else .ok (close op args)
  | none, none =>
    if name = "clip" then
      match args with
      | [value, low, high] => .ok (.clip value low high)
      | _ => .error (.arity name 3 args.length)
    else if name = "AccumBounds" then
      match args with
      | [low, high] => .ok (.node (.bounds low high))
      | _ => .error (.arity name 2 args.length)
    else .ok (.node (.call name args))

/-- Reads a literal, a name, a call or a formula in parentheses. -/
def primary (operand : Reader Term) : Reader Term
  | [] => throw .unexpectedEnd
  | ⟨.number v, _, _⟩ :: rest => return (.node (.const v), rest)
  | ⟨.leftParen, _, _⟩ :: ls => do
    let (t, rest) ← formula operand ls
    match rest with
    | ⟨.rightParen, _, _⟩ :: rest => return (t, rest)
    | l :: _ => throw (unexpected l)
    | [] => throw .unexpectedEnd
  | ⟨.name name, _, _⟩ :: ⟨.leftParen, _, _⟩ :: ls => do
    let (args, rest) ← arguments (formula operand) ls
    return (← call name args, rest)
  | ⟨.name name, position, _⟩ :: rest =>
    match atom? name with
    | some n => return (.node n, rest)
    | none => throw (.unknownSymbol name position)
  | l :: _ => throw (unexpected l)

/-- Reads a primary, raised to an operand if a power follows. -/
def power (operand : Reader Term) : Reader Term := fun ls => do
  let (base, rest) ← primary operand ls
  match rest with
  | ⟨.power, _, _⟩ :: ls =>
    let (exponent, rest) ← operand ls
    return (.node (.binary .pow base exponent), rest)
  | rest => return (base, rest)

/-- Reads an operand with any signs before it. -/
def signed (operand : Reader Term) : Reader Term
  | ⟨.plus, _, _⟩ :: ls => operand ls
  | ⟨.minus, _, _⟩ :: ls =>
    match negativeLiteral? ls with
    | some (n, rest) => return (.node n, rest)
    | none => do
      let (t, rest) ← operand ls
      return (.node (.unary .neg t), rest)
  | ls => power operand ls

/-- Reads an operand with a number of levels of nesting left. -/
def operand : (level : Nat) → Reader Term
  | 0 => fun _ => throw (.tooDeep depthLimit)
  | level + 1 => signed (operand level)

/-- Reads lexemes as one formula. -/
def ofLexemes? (ls : List Lexeme) : Except ParseError Term := do
  let (t, rest) ← formula (operand depthLimit) ls
  match rest with
  | l :: _ => throw (.trailing l.position)
  | [] => if depthLimit < t.tree.depth then throw (.tooDeep depthLimit) else return t

variable {β γ : Type}

/-- What a name stands for does not depend on what its children could be, as it has none. -/
theorem atom?_map (f : β → γ) (name : String) :
    (atom? name : Option (Node Float γ)) = (atom? name).map (Node.map f) := by
  unfold atom?
  split
  · rfl
  · rfl
  · split <;> rfl

theorem isLeaf_of_atom? {name : String} {n : Node Float β} (found : atom? name = some n) :
    n.isLeaf = true := by
  unfold atom? at found
  split at found
  · cases found
    rfl
  · cases found
    rfl
  · split at found <;> cases found <;> rfl

theorem negativeLiteral?_map (f : β → γ) (ls : List Lexeme) :
    (negativeLiteral? ls : Option (Node Float γ × List Lexeme)) =
      (negativeLiteral? ls).map fun (n, rest) => (n.map f, rest) := by
  unfold negativeLiteral?
  split
  · split <;> rfl
  · split <;> rfl
  · rfl

theorem negativeLiteral?_isLeaf {ls rest : List Lexeme} {n : Node Float β}
    (literal : negativeLiteral? ls = some (n, rest)) :
    n.isLeaf = true ∧ ∃ l, ls = l :: rest := by
  unfold negativeLiteral? at literal
  split at literal
  · split at literal <;> cases literal
    exact ⟨rfl, _, rfl⟩
  · split at literal <;> cases literal
    exact ⟨rfl, _, rfl⟩
  · cases literal

end Formula

namespace Parser

open Formula (unexpected unaryFunction? naryFunction? atom? negativeLiteral?)

/-- Appends the nodes of terms one after the other. -/
def pushAll (ts : List Term) : StateM (Arena Float) (List NodeId) := (ts.map Term.push).mapM id

theorem pushAll_cons (t : Term) (ts : List Term) (arena : Arena Float) :
    pushAll (t :: ts) arena =
      ((t.push arena).1 :: (pushAll ts (t.push arena).2).1, (pushAll ts (t.push arena).2).2) := by
  rw [pushAll, List.map_cons, List.mapM_cons]
  rfl

theorem pushAll_append (ts : List Term) (t : Term) (arena : Arena Float) :
    pushAll (ts ++ [t]) arena =
      ((pushAll ts arena).1 ++ [(t.push (pushAll ts arena).2).1],
        (t.push (pushAll ts arena).2).2) := by
  rw [pushAll, List.map_append, List.mapM_append]
  rfl

theorem length_pushAll (ts : List Term) (arena : Arena Float) :
    (pushAll ts arena).1.length = ts.length := by
  induction ts generalizing arena with
  | nil => rfl
  | cons t ts ih => rw [pushAll_cons, List.length_cons, ih, List.length_cons]

variable {β γ : Type}

/-- What became of reading something without an arena, with the nodes of it appended to one. -/
def stored (append : β → StateM (Arena Float) γ) (arena : Arena Float)
    (outcome : Except ParseError (β × List Lexeme)) :
    Except ParseError ((γ × List Lexeme) × Arena Float) :=
  outcome.map fun (b, rest) => (((append b arena).1, rest), (append b arena).2)

/-- What reads and appends nodes appends those of what is read without an arena. -/
def Builds (append : β → StateM (Arena Float) γ) (reader : Reader γ) (plain : Formula.Reader β) :
    Prop :=
  ∀ ls arena, reader ls arena = stored append arena (plain ls)

/-- What goes on from something that was read agrees if it does for everything that can be read. -/
theorem Builds.bind {δ ε : Type} {append : β → StateM (Arena Float) γ} {reader : Reader γ}
    {plain : Formula.Reader β} {append' : δ → StateM (Arena Float) ε}
    {next : γ × List Lexeme → Builder (ε × List Lexeme)}
    {next' : β × List Lexeme → Except ParseError (δ × List Lexeme)} {ls : List Lexeme}
    {arena start : Arena Float} (builds : Builds append reader plain)
    (goes_on : ∀ b rest, next ((append b arena).1, rest) (append b arena).2 =
      stored append' start (next' (b, rest))) :
    (reader ls >>= next) arena = stored append' start (plain ls >>= next') := by
  change (reader ls arena >>= fun p => next p.1 p.2) = _
  rw [builds ls arena]
  cases plain ls with
  | error e => rfl
  | ok found => exact goes_on found.1 found.2

theorem stored_leaf {n : Node Float Term} (leaf : n.isLeaf = true) (ls : List Lexeme)
    (arena : Arena Float) :
    (do return (← push (n.map fun _ => 0), ls) : Builder (NodeId × List Lexeme)) arena =
      stored Term.push arena (.ok (.node n, ls)) := by
  cases n with
  | const | var | param | symbol => rfl
  | _ => cases leaf

theorem close_eq (op : NaryOp) (ts : List Term) (arena : Arena Float) :
    close op (pushAll ts arena).1 (pushAll ts arena).2 =
      .ok ((Formula.close op ts).push arena) := by
  match ts with
  | [] => rfl
  | [t] => rfl
  | t :: u :: ts =>
      have pushed : (Term.node (.nary op (t :: u :: ts))).push arena =
          Arena.push (.nary op (pushAll (t :: u :: ts) arena).1)
            (pushAll (t :: u :: ts) arena).2 := by
        rw [Term.push_node]
        rfl
      change _ = Except.ok ((Term.node (.nary op (t :: u :: ts))).push arena)
      rw [pushed, pushAll_cons, pushAll_cons]
      rfl

theorem close_bind {δ : Type} (op : NaryOp) (ts : List Term) (arena : Arena Float)
    (next : NodeId → Builder δ) :
    (close op (pushAll ts arena).1 >>= next) (pushAll ts arena).2 =
      next ((Formula.close op ts).push arena).1 ((Formula.close op ts).push arena).2 := by
  change (close op (pushAll ts arena).1 (pushAll ts arena).2 >>= fun p => next p.1 p.2) = _
  rw [close_eq]
  rfl

section Readers

variable {reader : Reader NodeId} {plain : Formula.Reader Term}

/-- A loop goes on from the nodes of any terms as the loop without an arena goes on from the terms. -/
def Continues {γ β : Type} (append : β → StateM (Arena Float) γ)
    (tail : List NodeId → Reader γ) (plainTail : List Term → Formula.Reader β) : Prop :=
  ∀ ts ls arena, tail (pushAll ts arena).1 ls (pushAll ts arena).2 =
    stored append arena (plainTail ts ls)

section Loops

variable {γ β : Type} {append : β → StateM (Arena Float) γ} {tail : List NodeId → Reader γ}
  {plainTail : List Term → Formula.Reader β}

/-- One more item is put behind those that the loop has. -/
theorem Continues.extended (continues : Continues append tail plainTail)
    (builds : Builds Term.push reader plain) (ts : List Term) (ls : List Lexeme)
    (arena : Arena Float) :
    (reader ls >>= fun p => tail ((pushAll ts arena).1 ++ [p.1]) p.2) (pushAll ts arena).2 =
      stored append arena (plain ls >>= fun p => plainTail (ts ++ [p.1]) p.2) := by
  refine builds.bind fun t rest => ?_
  have goes_on := continues (ts ++ [t]) rest arena
  rwa [pushAll_append] at goes_on

/-- What the loop has is closed and becomes the first operand of another operator, which the loop
goes on from. -/
theorem Continues.joined (continues : Continues append tail plainTail)
    (builds : Builds Term.push reader plain) (op : NaryOp) (join : BinaryOp) (ts : List Term)
    (ls : List Lexeme) (arena : Arena Float) :
    (close op (pushAll ts arena).1 >>= fun before => reader ls >>= fun p =>
        push (.binary join before p.1) >>= fun i => tail [i] p.2) (pushAll ts arena).2 =
      stored append arena
        (plain ls >>= fun p => plainTail [.node (.binary join (Formula.close op ts) p.1)] p.2) := by
  rw [close_bind]
  refine builds.bind fun t rest => ?_
  exact continues [.node (.binary join (Formula.close op ts) t)] rest arena

end Loops

theorem continues_productTail (builds : Builds Term.push reader plain) (bound : Nat) :
    Continues Term.push (productTail reader bound) (Formula.productTail plain bound) := by
  -- The loop ends where no turns are left, or before a lexeme that continues no product.
  induction bound with
  | zero =>
      intro ts ls arena
      have closed := close_bind .mul ts arena fun i => pure (i, ls)
      cases ls <;> exact closed
  | succ bound ih =>
      intro ts ls arena
      have closed := close_bind .mul ts arena fun i => pure (i, ls)
      match ls with
      | [] => exact closed
      | ⟨token, position, text⟩ :: ls =>
          cases token with
          | star => exact ih.extended builds ts ls arena
          | slash => exact ih.joined builds .mul .div ts ls arena
          | _ => exact closed

theorem builds_product (builds : Builds Term.push reader plain) :
    Builds Term.push (product reader) (Formula.product plain) := fun _ arena =>
  builds.bind fun t rest => continues_productTail builds rest.length [t] rest arena

theorem continues_sumTail (builds : Builds Term.push reader plain) (bound : Nat) :
    Continues Term.push (sumTail reader bound) (Formula.sumTail plain bound) := by
  induction bound with
  | zero =>
      intro ts ls arena
      have closed := close_bind .add ts arena fun i => pure (i, ls)
      cases ls <;> exact closed
  | succ bound ih =>
      intro ts ls arena
      have closed := close_bind .add ts arena fun i => pure (i, ls)
      match ls with
      | [] => exact closed
      | ⟨token, position, text⟩ :: ls =>
          cases token with
          | plus => exact ih.extended builds ts ls arena
          | minus => exact ih.joined builds .add .sub ts ls arena
          | _ => exact closed

theorem builds_sum (builds : Builds Term.push reader plain) :
    Builds Term.push (sum reader) (Formula.sum plain) := fun _ arena =>
  builds.bind fun t rest => continues_sumTail builds rest.length [t] rest arena

theorem builds_comparison (builds : Builds Term.push reader plain) :
    Builds Term.push (comparison reader) (Formula.comparison plain) := fun ls arena => by
  refine builds.bind fun t rest => ?_
  match rest with
  | [] => rfl
  | ⟨token, position, text⟩ :: rest =>
      cases token with
      | relation op => exact builds.bind fun u rest => rfl
      | _ => rfl

theorem builds_formula (builds : Builds Term.push reader plain) :
    Builds Term.push (formula reader) (Formula.formula plain) :=
  builds_comparison (builds_sum (builds_product builds))

theorem continues_argumentsTail (builds : Builds Term.push reader plain) (bound : Nat) :
    Continues pushAll (argumentsTail reader bound) (Formula.argumentsTail plain bound) := by
  induction bound with
  | zero =>
      intro ts ls arena
      match ls with
      | [] => rfl
      | ⟨token, position, text⟩ :: ls => cases token <;> rfl
  | succ bound ih =>
      intro ts ls arena
      match ls with
      | [] => rfl
      | ⟨token, position, text⟩ :: ls =>
          cases token with
          | comma => exact ih.extended builds ts ls arena
          | _ => rfl

theorem builds_arguments (builds : Builds Term.push reader plain) :
    Builds pushAll (arguments reader) (Formula.arguments plain) := fun ls arena => by
  have several : (reader ls >>= fun p => argumentsTail reader p.2.length [p.1] p.2) arena =
      stored pushAll arena
        (plain ls >>= fun p => Formula.argumentsTail plain p.2.length [p.1] p.2) :=
    builds.bind fun t rest => continues_argumentsTail builds rest.length [t] rest arena
  match ls with
  | [] => exact several
  | ⟨token, position, text⟩ :: ls =>
      cases token with
      | rightParen => rfl
      | _ => exact several

theorem call_eq (name : String) (ts : List Term) (arena : Arena Float) :
    call name (pushAll ts arena).1 (pushAll ts arena).2 =
      (Formula.call name ts).map fun t => t.push arena := by
  have refused (needed : Nat) :
      (.error (.arity name needed (pushAll ts arena).1.length) :
        Except ParseError (NodeId × Arena Float)) = .error (.arity name needed ts.length) := by
    rw [length_pushAll]
  unfold call Formula.call
  cases unaryFunction? name with
  | some op =>
      obtain _ | ⟨a, _ | ⟨b, ts⟩⟩ := ts
      · rfl
      · rfl
      · rw [pushAll_cons, pushAll_cons] at refused ⊢
        exact refused 1
  | none =>
      cases naryFunction? name with
      | some op =>
          cases ts with
          | nil => rfl
          | cons a ts =>
              have closed := close_eq op (a :: ts) arena
              rw [pushAll_cons] at closed ⊢
              exact closed
      | none =>
          dsimp only
          split_ifs
          · obtain _ | ⟨a, _ | ⟨b, _ | ⟨c, _ | ⟨d, ts⟩⟩⟩⟩ := ts
            · rfl
            · rfl
            · rfl
            · rfl
            · rw [pushAll_cons, pushAll_cons, pushAll_cons, pushAll_cons] at refused ⊢
              exact refused 3
          · obtain _ | ⟨a, _ | ⟨b, _ | ⟨c, ts⟩⟩⟩ := ts
            · rfl
            · rfl
            · rfl
            · rw [pushAll_cons, pushAll_cons, pushAll_cons] at refused ⊢
              exact refused 2
          · exact congrArg Except.ok (congrFun (Term.push_node (.call name ts)) arena).symm

theorem builds_primary (builds : Builds Term.push reader plain) :
    Builds Term.push (primary reader) (Formula.primary plain) := fun ls arena => by
  match ls with
  | [] => rfl
  | ⟨token, position, text⟩ :: ls =>
      cases token with
      | leftParen =>
          refine (builds_formula builds).bind fun t rest => ?_
          match rest with
          | [] => rfl
          | ⟨token, position, text⟩ :: rest => cases token <;> rfl
      | name name =>
          have named : (atom name position >>= fun i => pure (i, ls)) arena =
              stored Term.push arena (match atom? name with
                | some n => .ok (.node n, ls)
                | none => .error (.unknownSymbol name position)) := by
            unfold atom
            rw [Formula.atom?_map fun _ : Term => (0 : NodeId)]
            cases found : (atom? name : Option (Node Float Term)) with
            | none => rfl
            | some n => exact stored_leaf (Formula.isLeaf_of_atom? found) ls arena
          match ls with
          | [] => exact named
          | ⟨token, position', text⟩ :: ls =>
              cases token with
              | leftParen =>
                  refine (builds_arguments (builds_formula builds)).bind fun ts rest => ?_
                  change (call name (pushAll ts arena).1 (pushAll ts arena).2 >>= fun p =>
                    .ok ((p.1, rest), p.2)) =
                      stored Term.push arena (Formula.call name ts >>= fun t => .ok (t, rest))
                  rw [call_eq]
                  cases Formula.call name ts <;> rfl
              | _ => exact named
      | _ => rfl

theorem builds_power (builds : Builds Term.push reader plain) :
    Builds Term.push (power reader) (Formula.power plain) := fun ls arena => by
  refine (builds_primary builds).bind fun t rest => ?_
  match rest with
  | [] => rfl
  | ⟨token, position, text⟩ :: rest =>
      cases token with
      | power => exact builds.bind fun u rest => rfl
      | _ => rfl

theorem builds_signed (builds : Builds Term.push reader plain) :
    Builds Term.push (signed reader) (Formula.signed plain) := fun ls arena => by
  have unsigned := builds_power builds ls arena
  match ls with
  | [] => exact unsigned
  | ⟨token, position, text⟩ :: ls =>
      cases token with
      | plus => exact builds ls arena
      | minus =>
          unfold signed Formula.signed
          dsimp only
          rw [Formula.negativeLiteral?_map fun _ : Term => (0 : NodeId)]
          cases found : (negativeLiteral? ls : Option (Node Float Term × List Lexeme)) with
          | none => exact builds.bind fun t rest => rfl
          | some literal =>
              exact stored_leaf (Formula.negativeLiteral?_isLeaf found).1 literal.2 arena
      | _ => exact unsigned

end Readers

theorem builds_operand (level : Nat) :
    Builds Term.push (operand level) (Formula.operand level) := by
  induction level with
  | zero => exact fun ls arena => rfl
  | succ level ih => exact builds_signed ih

/-- The parser appends the nodes of the term that is read. -/
theorem ofLexemes?_eq (ls : List Lexeme) :
    ofLexemes? ls = (Formula.ofLexemes? ls).map Term.store := by
  rw [ofLexemes?, builds_formula (builds_operand depthLimit) ls #[], Formula.ofLexemes?]
  cases Formula.formula (Formula.operand depthLimit) ls with
  | error e => rfl
  | ok found =>
      obtain ⟨t, rest⟩ := found
      cases rest with
      | cons l rest => rfl
      | nil =>
          have depth_eq : t.store.depth = t.tree.depth := by
            rw [Expr.depth_eq t.ordered_store t.root_store_lt, t.unfold_store]
          change (if depthLimit < t.store.depth then _ else _) = Except.map _ (if _ then _ else _)
          rw [depth_eq]
          split <;> rfl

end Parser

theorem Formula.parse_eq (text : String) : parse text = (do
    let ls ← Lexeme.ofText? text
    let t ← ofLexemes? ls
    return t.store) := by
  refine bind_congr fun ls => ?_
  rw [Parser.ofLexemes?_eq]
  cases ofLexemes? ls <;> rfl

end FormulaFit
