import FormulaFit.Double
import FormulaFit.Expr.Basic
import FormulaFit.Random.Source

/-!
# Lifting constants

Before its constants are optimized, a formula has them replaced by coefficients, numbered from left
to right; afterwards the optimized values are put back as literals.  A literal that is the whole
exponent of a power and integral stays, so that `x**2` keeps its shape.  Equal constants are moved
apart by small random offsets, so that they can be optimized independently.
-/

namespace FormulaFit
namespace Expr

variable {α : Type}

/-- The node at an index is a literal without a fractional part. -/
def isIntegralAt [Scalar α] (e : Expr α) (i : NodeId) : Bool :=
  match e.nodes[i]? with
  | some (.const v) => Scalar.isIntegral v
  | _ => false

/-- The occurrences below an index of literals that can be lifted, from left to right. -/
def liftableAt [Scalar α] (e : Expr α) (i : NodeId) : List (NodeId × α) :=
  match e.nodes[i]? with
  | some (.const v) => if Scalar.isFinite v then [(i, v)] else []
  | some (.binary .pow base exponent) =>
    (if base < i then e.liftableAt base else []) ++
      if exponent < i && !e.isIntegralAt exponent then e.liftableAt exponent else []
  | some n => n.children.flatMap fun c => if c < i then e.liftableAt c else []
  | none => []
termination_by i
decreasing_by all_goals simp_all

/-- The occurrences of literals that can be lifted, from left to right. -/
def liftable [Scalar α] (e : Expr α) : List (NodeId × α) := e.liftableAt e.root

/-- How many coefficients lifting makes. -/
def freeConstantCount [Scalar α] (e : Expr α) : Nat := e.liftable.length

/-- The number of an index among some; of an index that occurs twice the later number counts. -/
def number? (ids : List NodeId) (i : NodeId) : Option Nat :=
  ids.zipIdx.foldl (fun found (id, k) => if id = i then some k else found) none

/-- The formula with the nodes at some indices replaced by coefficients, numbered in the order of
the indices. -/
def parametrize (e : Expr α) (ids : List NodeId) : Expr α :=
  let write : StateM (Arena α) NodeId := e.foldAt (Arena.push (.symbol .nan))
    (fun i n =>
      match number? ids i with
      | some k => Arena.push (.param (UInt64.ofNat k))
      | none => do Arena.push (← n.mapM id)) e.root
  let (root, nodes) := write #[]
  ⟨nodes, root⟩

/-- A constant occurs more than once; the two zeros are different constants. -/
def isRepeated (constants : List Float) (v : Float) : Bool :=
  1 < constants.countP fun w => decide (w = v)

/-- The values of constants, those that occur more than once moved by random offsets up to a scale.
There are none if an offset cannot be drawn. -/
def perturb? {σ : Type} [WordSource σ] (scale : Float) (constants : List Float) :
    List Float → σ → Option (List Float × σ)
  | [], source => some ([], source)
  | v :: vs, source => do
    let (offset, source) ←
      if isRepeated constants v && 0 < scale then Random.uniform? (-scale) scale source
      else some (0, source)
    let (values, source) ← perturb? scale constants vs source
    return ((v + offset) :: values, source)

/-- The formula with its constants lifted, and the initial values of the coefficients.  There is no
result if an offset cannot be drawn. -/
def lift? {σ : Type} [WordSource σ] (scale : Float) (e : Expr Float) (source : σ) :
    Option ((Expr Float × List Float) × σ) := do
  let found := e.liftable
  let constants := found.map Prod.snd
  let (values, source) ← perturb? scale constants constants source
  return ((e.parametrize (found.map Prod.fst), values), source)

/-- Appends the value of a coefficient in its place, and everything else as it is. -/
def insertParam (params : List α) : Node α NodeId → StateM (Arena α) NodeId
  | .param i =>
    match params[i.toNat]? with
    | some v => Arena.push (.const v)
    | none => Arena.push (.param i)
  | n => Arena.push n

/-- The formula with the coefficients that have a value replaced by it. -/
def insertParams (params : List α) (e : Expr α) : Expr α := e.rebuild (insertParam params)

end Expr

end FormulaFit
