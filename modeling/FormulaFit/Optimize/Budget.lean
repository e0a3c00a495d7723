import FormulaFit.Json.Basic
import FormulaFit.Random.Source

/-!
# Iteration budgets

A fixed number of optimizer iterations is shared out over the candidates in proportion to their
constants.  Rounding leaves a few iterations over, which go to distinct candidates at random; what a
candidate does not use goes to those after it in the same way.  Iterations are moved, never made or
lost.
-/

namespace FormulaFit
namespace Budget

-- Sums start from the numeral zero, whatever else is imported.
attribute [local instance (high)] Zero.ofOfNat0

variable {σ : Type} [WordSource σ]

/-- Gives one more iteration to each of some distinct entries, drawn at random. -/
def spread (slots : List UInt64) (remainder : Nat) (source : σ) : List UInt64 × σ :=
  let (chosen, source) := Random.sample slots.length remainder source
  (chosen.foldl (fun slots i => slots.modify i (· + 1)) slots, source)

/-- What candidates weigh: their constants, or one each if there are none at all. -/
def weights (counts : List Nat) : List Nat :=
  if counts.all (· = 0) then counts.map fun _ => 1 else counts

/-- Shares of a total in proportion to weights, rounded down. -/
def floors (total : UInt64) (weights : List Nat) : List UInt64 :=
  weights.map fun w => UInt64.ofNat (total.toNat * w / weights.sum)

/-- Shares of a total in proportion to constant counts. -/
def partition (total : UInt64) (counts : List Nat) (source : σ) : List UInt64 × σ :=
  if counts.isEmpty then ([], source)
  else
    let shares := floors total (weights counts)
    spread shares (total - shares.sum).toNat source

/-- The allotments of one batch of candidates. -/
structure Ledger where
  /-- Iterations of the whole batch. -/
  total : UInt64
  /-- Iterations of every candidate. -/
  allotted : List UInt64
deriving DecidableEq, Repr

namespace Ledger

/-- Splits a total in proportion to constant counts. -/
def proportional (total : UInt64) (counts : List Nat) (source : σ) : Ledger × σ :=
  let (shares, source) := partition total counts source
  (⟨total, shares⟩, source)

/-- The iterations of a candidate; none beyond the last. -/
def allotment (ledger : Ledger) (i : Nat) : UInt64 := ledger.allotted.getD i 0

/-- Sum of all allotments. -/
def allottedTotal (ledger : Ledger) : UInt64 := ledger.allotted.sum

/-- Records how many iterations a candidate used.  The rest of its allotment goes to the candidates
after it, evenly and then at random; the last candidate keeps its rest. -/
def settle (ledger : Ledger) (i : Nat) (used : UInt64) (source : σ) : Ledger × σ :=
  match ledger.allotted.drop i with
  | [] | [_] => (ledger, source)
  | allotment :: later =>
    let used := if used < allotment then used else allotment
    let unused := (allotment - used).toNat
    let evenly := later.map fun a => a + UInt64.ofNat (unused / later.length)
    let (later, source) := spread evenly (unused % later.length) source
    (⟨ledger.total, ledger.allotted.take i ++ used :: later⟩, source)

/-- Reads a ledger. -/
def ofJson? (j : Json) : Option Ledger := do
  match ← j.record? false ["total", "allotted"] with
  | [some total, some allotted] =>
    return ⟨← total.word?, ← (← allotted.items?).mapM Json.word?⟩
  | _ => none

end Ledger
end Budget
end FormulaFit
