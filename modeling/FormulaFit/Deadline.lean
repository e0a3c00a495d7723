import FormulaFit.Error

/-!
# Deadlines

A stage checks its time limit at loop boundaries.  Computation here takes no time, so a limit of
zero has passed at the first check and every other limit is never reached.
-/

namespace FormulaFit

/-- The time limit of one stage. -/
structure Deadline where
  stage : Stage
  /-- Milliseconds that the stage may take. -/
  limitMs : Nat
deriving DecidableEq, Repr

namespace Deadline

/-- The limit has passed. -/
def expired (d : Deadline) : Bool := d.limitMs == 0

/-- Fails once the limit has passed. -/
def check (d : Deadline) : Except Error Unit :=
  if d.expired then .error (.timeout d.stage d.limitMs) else .ok ()

end Deadline

end FormulaFit
