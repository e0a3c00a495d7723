import FormulaFit.Error

/-!
# Matrices

A dense matrix keeps its entries row by row, and its type keeps the number of entries equal to the
product of the numbers of rows and columns.
-/

namespace FormulaFit

-- Powers of naturals are those of the core library, whatever else is imported.
attribute [local instance (high)] instPowNat

/-- A dense matrix. -/
structure Matrix (α : Type) where
  rows : Nat
  cols : Nat
  /-- The entries, row by row. -/
  entries : Array α
  /-- There is one entry for every row and column. -/
  size_entries : entries.size = rows * cols

namespace Matrix

variable {α : Type}

/-- Greatest number of entries that a shape may call for; a side of zero does not count. -/
def shapeLimit : Nat := 2 ^ (63 : Nat) - 1

/-- The shape does not call for more entries than can be addressed. -/
def isAddressable (rows cols : Nat) : Bool :=
  let sides := [rows, cols].filter fun n => n ≠ 0
  sides.foldl (· * ·) 1 ≤ shapeLimit

/-- A matrix of entries given row by row. -/
def ofEntries? (entries : List α) (rows cols : Nat) : Except Error (Matrix α) :=
  if h : entries.length = rows * cols then
    if isAddressable rows cols then .ok ⟨rows, cols, entries.toArray, by simpa using h⟩
    else .error (.data (.shape entries.length rows cols))
  else .error (.data (.shape entries.length rows cols))

/-- A matrix of rows; the first one sets the width. -/
def ofRows? (rows : List (List α)) : Except Error (Matrix α) :=
  let cols := (rows.head?.map List.length).getD 0
  match rows.zipIdx.find? fun (row, _) => row.length ≠ cols with
  | some (row, i) => .error (.data (.ragged i row.length cols))
  | none => ofEntries? rows.flatten rows.length cols

/-- A matrix of one column. -/
def ofColumn (column : List α) : Matrix α :=
  ⟨column.length, 1, column.toArray, by simp⟩

/-- A matrix with the same entry everywhere. -/
def replicate (rows cols : Nat) (v : α) : Matrix α :=
  ⟨rows, cols, Array.replicate (rows * cols) v, by simp⟩

/-- The entries of a row. -/
def row (m : Matrix α) (i : Nat) : Array α := m.entries.extract (i * m.cols) (i * m.cols + m.cols)

/-- Every row lies within the entries. -/
theorem row_end_le (m : Matrix α) {i : Nat} (above : i < m.rows) :
    i * m.cols + m.cols ≤ m.entries.size := by
  rw [m.size_entries, ← Nat.succ_mul]
  exact Nat.mul_le_mul_right m.cols above

/-- The rows from top to bottom. -/
def rowList (m : Matrix α) : List (Array α) := (List.range m.rows).map m.row

/-- The entries of a column. -/
def column (m : Matrix α) (j : Nat) : List α :=
  (List.range m.rows).filterMap fun i => m.entries[i * m.cols + j]?

/-- The columns from left to right. -/
def columnList (m : Matrix α) : List (List α) := (List.range m.cols).map m.column

/-- The entry of a row and a column, if there is one. -/
def get? (m : Matrix α) (i j : Nat) : Option α :=
  if i < m.rows && j < m.cols then m.entries[i * m.cols + j]? else none

/-- The matrix with every entry replaced, depending on its column. -/
def mapColumns (f : Nat → α → α) (m : Matrix α) : Matrix α :=
  ⟨m.rows, m.cols, m.entries.mapIdx fun k v => f (k % m.cols) v, by simpa using m.size_entries⟩

/-- Some entry is missing, that is, not a number. -/
def hasMissing [Scalar α] (m : Matrix α) : Bool := m.entries.any Scalar.isNaN

end Matrix

end FormulaFit
