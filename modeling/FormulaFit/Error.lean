import FormulaFit.Decimal.Layout
import FormulaFit.Expr.Validity

/-!
# Errors

Everything that can fail, by cause.  `Error.message` is the one place that words a cause.  A
mistake in the configuration is the only kind of error that the refinement of a pool does not
absorb.
-/

namespace FormulaFit

/-- Stages of the work that have a time limit. -/
inductive Stage where
  | simplify | compile | finetune
deriving DecidableEq, Repr

/-- What the stage does. -/
def Stage.name : Stage → String
  | simplify => "simplification"
  | compile => "compilation"
  | finetune => "fine-tuning"

/-- Why a text is not a formula; positions count the bytes of the text before the culprit. -/
inductive ParseError where
  /-- A character that begins no token. -/
  | unexpectedChar (c : Char) (position : Nat)
  | unexpectedToken (text : String) (position : Nat)
  | unexpectedEnd
  | unknownSymbol (name : String) (position : Nat)
  | malformedNumber (text : String) (position : Nat)
  /-- A token behind a complete formula. -/
  | trailing (position : Nat)
  /-- A known function with the wrong number of arguments. -/
  | arity (name : String) (expected got : Nat)
  | tooDeep (limit : Nat)
deriving DecidableEq, Repr

/-- Says what was met and where. -/
def ParseError.message : ParseError → String
  | unexpectedChar c position => s!"unexpected character '{c}' at position {position}"
  | unexpectedToken text position => s!"unexpected '{text}' at position {position}"
  | unexpectedEnd => "unexpected end of input"
  | unknownSymbol name position => s!"unknown symbol '{name}' at position {position}"
  | malformedNumber text position => s!"malformed number '{text}' at position {position}"
  | trailing position => s!"trailing input at position {position}"
  | arity name expected got => s!"function '{name}' expects {expected} arguments, got {got}"
  | tooDeep limit => s!"expression nests deeper than {limit} levels"

/-- A part of a formula that cannot be compiled. -/
inductive Unsupported where
  | symbol (s : Symbol)
  | relation (op : Comparison)
  | bounds
  | call (name : String)
deriving DecidableEq, Repr

/-- Names the part. -/
def Unsupported.message : Unsupported → String
  | symbol s => "symbol " ++ s.name
  | relation op => "relation '" ++ op.sign ++ "'"
  | bounds => "AccumBounds"
  | call name => name

/-- Why a computation has no usable numbers. -/
inductive NumericFault where
  | nonFiniteLiteral (v : Float)
  /-- An evaluation failed for the reason worded here. -/
  | failure (reason : String)
deriving DecidableEq, Repr

/-- Words the fault. -/
def NumericFault.message : NumericFault → String
  | nonFiniteLiteral v => "non-finite literal " ++ Decimal.Layout.plain.render v
  | failure reason => reason

/-- Why a configuration, or a choice made by it, is not accepted. -/
inductive ConfigFault where
  /-- The stored form does not have the right shape. -/
  | malformed
  /-- A complexity weight outside the unit interval. -/
  | weightOutside (rci : Float)
  | notPositive (field : String) (v : Float)
  | negative (field : String) (v : Float)
  | notFinite (field : String) (v : Float)
  /-- No curvature pairs to be kept. -/
  | noHistory
  | unknownMetric (name : String)
  /-- Two score lists of different lengths. -/
  | scoreCounts (errors complexities : Nat)
  /-- A fault reported from outside the library. -/
  | other (reason : String)
deriving DecidableEq, Repr

/-- Words the fault. -/
def ConfigFault.message : ConfigFault → String
  | malformed => "malformed configuration"
  | weightOutside rci => "rci must lie in [0, 1], got " ++ Decimal.Layout.plain.render rci
  | notPositive field v => field ++ " must be positive, got " ++ Decimal.Layout.plain.render v
  | negative field v => field ++ " must be non-negative, got " ++ Decimal.Layout.plain.render v
  | notFinite field v => field ++ " must be finite, got " ++ Decimal.Layout.plain.render v
  | noHistory => "history_size must be at least 1"
  | unknownMetric name => s!"unrecognized complexity metric '{name}'"
  | scoreCounts errors complexities => s!"{errors} errors but {complexities} complexities"
  | other reason => reason

/-- Why a formula cannot be repaired. -/
inductive SanitizeFault where
  | invalid (fault : ExprFault)
  /-- It has free coefficients; the text displays it. -/
  | unboundParameters (text : String)
  /-- A degenerate part is left; the text displays the formula. -/
  | degenerateLeft (text : String)
  /-- A fault reported from outside the library. -/
  | other (reason : String)
deriving DecidableEq, Repr

/-- Words the fault. -/
def SanitizeFault.message : SanitizeFault → String
  | invalid fault => fault.message
  | unboundParameters text => text ++ " references unbound parameters"
  | degenerateLeft text => "degenerate construct survived substitution in " ++ text
  | other reason => reason

/-- Why data do not fit together. -/
inductive DataFault where
  /-- The number of values is not that of the shape. -/
  | shape (values rows cols : Nat)
  | ragged (row cols expected : Nat)
  /-- Rows and targets differ in number. -/
  | targetCount (rows targets : Nat)
  | noRows
  | targetNotFinite (index : Nat)
  /-- A formula reads a column that the data do not have. -/
  | featureOutside (index count : Nat)
  /-- A coefficient vector of the wrong length. -/
  | paramCount (expected got : Nat)
  | columnCount (expected got : Nat)
  /-- Targets that do not match the rows of a loss. -/
  | targetsForRows (targets rows : Nat)
  /-- An imputer met another width than it was fitted on. -/
  | imputerWidth (fitted got : Nat)
  | noImputer
  /-- A fault reported from outside the library. -/
  | other (reason : String)
deriving DecidableEq, Repr

/-- Words the fault. -/
def DataFault.message : DataFault → String
  | shape values rows cols => s!"matrix of {values} values cannot have shape {rows}x{cols}"
  | ragged row cols expected => s!"row {row} has {cols} columns, expected {expected}"
  | targetCount rows targets => s!"{rows} feature rows but {targets} targets"
  | noRows => "dataset has no rows"
  | targetNotFinite index => s!"target {index} is not finite"
  | featureOutside index count => s!"x_{index} referenced but the data has {count} features"
  | paramCount expected got => s!"expected {expected} parameters, got {got}"
  | columnCount expected got => s!"expected {expected} feature columns, got {got}"
  | targetsForRows targets rows => s!"{targets} targets for {rows} rows"
  | imputerWidth fitted got => s!"imputer fitted on {fitted} columns, got {got}"
  | noImputer => "inputs contain missing values and the model has no imputer"
  | other reason => reason

/-- Everything that can fail. -/
inductive Error where
  | parse (e : ParseError)
  /-- A stage took longer than it may. -/
  | timeout (stage : Stage) (limitMs : Nat)
  | unsupported (part : Unsupported)
  | numericInvalid (fault : NumericFault)
  | config (fault : ConfigFault)
  | emptyPool
  | unsanitizable (fault : SanitizeFault)
  | data (fault : DataFault)
  | serialization
  /-- An assumption of the library does not hold. -/
  | internal (reason : String)
  /-- An index beyond the entries it reads; nothing recovers from it. -/
  | indexOutside (index count : Nat)
deriving DecidableEq, Repr

namespace Error

/-- Words the error, its kind first. -/
def message : Error → String
  | parse e => "Parse error: " ++ e.message
  | timeout stage limitMs => s!"Timeout: {stage.name} exceeded {limitMs} ms"
  | unsupported part => "Unsupported operator: " ++ part.message
  | numericInvalid fault => "Numerically invalid: " ++ fault.message
  | config fault => "Configuration error: " ++ fault.message
  | emptyPool => "Empty candidate pool: every raw candidate failed refinement"
  | unsanitizable fault => "Unsanitizable expression: " ++ fault.message
  | data fault => "Data error: " ++ fault.message
  | serialization => "Serialization error: malformed data"
  | internal reason => "Internal error: " ++ reason
  | indexOutside index count => s!"index out of bounds: the len is {count} but the index is {index}"

/-- The error stops everything that is going on instead of being reported by it. -/
def isCrash : Error → Bool
  | indexOutside .. => true
  | _ => false

/-- The refinement of a pool may absorb the error. -/
def isRecoverable : Error → Bool
  | config _ | indexOutside .. => false
  | _ => true

/-- The result of a computation whose failure does not matter; a crash still does. -/
def absorb {β : Type} : Except Error β → Except Error (Option β)
  | .ok b => .ok (some b)
  | .error e => if e.isCrash then .error e else .ok none

end Error

/-- The entry at an index, which has to be there. -/
def fetch {β : Type} (entries : Array β) (i : Nat) : Except Error β :=
  match entries[i]? with
  | some b => .ok b
  | none => .error (.indexOutside i entries.size)

/-- Replaces the entry at an index, which has to be there. -/
def put {β : Type} (entries : Array β) (i : Nat) (b : β) : Except Error (Array β) :=
  if i < entries.size then .ok (entries.setIfInBounds i b)
  else .error (.indexOutside i entries.size)

end FormulaFit
