/-
  Wtfsc.Matrix.SparseMatrix — the compressed-row matrix of src/matrix/sparse_matrix.cpp,
  from which `Wtfsc.ParallelSparseMatrix.SparseMatrix` was rewritten.

  The members are the same; rows and columns are counted from 1 and so are the positions
  that `rows` points to, and coordinates are checked. The scans of `get` and `set` and the
  loop that moves the row pointers are the same code in both.
-/

import Wtfsc.ParallelSparseMatrix.SparseMatrix

namespace Wtfsc.Matrix

open Wtfsc.Cpp
open Wtfsc.ParallelSparseMatrix (SparseMatrix SetCall getLoop setLoop shiftRows sizeMismatch)

variable {T : Type}

/-- `SparseMatrix(int rows, int columns)` -/
def construct (rows columns : Int) : Exec (SparseMatrix T) :=
  if rows < 1 ∨ columns < 1 then .error (.throws "Matrix dimensions cannot be zero or negative.")
  else do
    let size ← addInt rows 1
    .ok { m := rows, n := columns, vals := none, rows := List.replicate size.toNat 1, cols := none }

def validateCoordinates (B : SparseMatrix T) (row col : Int) : Exec Unit :=
  if row < 1 ∨ col < 1 ∨ row > B.m ∨ col > B.n then .error (.throws "Coordinates out of range.") else .ok ()

def insert (B : SparseMatrix T) (index row col : Int) (val : T) : Exec (SparseMatrix T) := do
  let stored ← match B.vals with
    | none => .ok ([val], [col])
    | some vals => do
      let vals' ← insertAt vals index val
      let cols ← deref B.cols
      let cols' ← insertAt cols index col
      .ok (vals', cols')
  let rows ← shiftRows 1 (B.m + 1 - row).toNat row B.rows
  .ok { B with vals := some stored.1, cols := some stored.2, rows := rows }

def remove (B : SparseMatrix T) (index row : Int) : Exec (SparseMatrix T) := do
  let vals ← deref B.vals
  let vals' ← eraseAt vals index
  let cols ← deref B.cols
  let cols' ← eraseAt cols index
  let rows ← shiftRows (-1) (B.m + 1 - row).toNat row B.rows
  .ok { B with vals := some vals', cols := some cols', rows := rows }

variable [Inhabited T]

def get (B : SparseMatrix T) (row col : Int) : Exec T := do
  let _ ← validateCoordinates B row col
  let rowStart ← at_ B.rows (row - 1)
  let rowEnd ← at_ B.rows row
  getLoop B col (rowEnd - 1 - (rowStart - 1)).toNat (rowStart - 1)

section Product

variable [Add T] [Mul T]

/-- The products of a row, `k` positions from `j` on; the operands of `*` have no order. -/
def sumLoop (B : SparseMatrix T) (x : List T) : Nat → Int → T → Exec T
  | 0, _, sum => .ok sum
  | k + 1, j, sum => do
    let cols ← deref B.cols
    let col ← at_ cols (j - 1)
    let vals ← deref B.vals
    let v ← at_ vals (j - 1)
    let w ← at_ x (col - 1)
    sumLoop B x k (j + 1) (sum + v * w)

/-- `result[i] = sum` for `k` rows from `i` on. -/
def multiplyLoop (B : SparseMatrix T) (x : List T) : Nat → Int → List T → Exec (List T)
  | 0, _, result => .ok result
  | k + 1, i, result => do
    let rowStart ← at_ B.rows i
    let rowEnd ← at_ B.rows (i + 1)
    let sum ← sumLoop B x (rowEnd - rowStart).toNat rowStart default
    let result' ← setAt result i sum
    multiplyLoop B x k (i + 1) result'

def multiply (B : SparseMatrix T) (x : List T) : Exec (List T) :=
  if B.n ≠ int32 x.length then .error sizeMismatch
  else
    let result := List.replicate B.m.toNat default
    if B.vals = none then .ok result else multiplyLoop B x B.m.toNat 0 result

end Product

variable [DecidableEq T]

def set (B : SparseMatrix T) (val : T) (row col : Int) : Exec (SparseMatrix T) := do
  let _ ← validateCoordinates B row col
  let rowStart ← at_ B.rows (row - 1)
  let rowEnd ← at_ B.rows row
  let scan ← setLoop B col (rowEnd - 1 - (rowStart - 1)).toNat (rowStart - 1) 0
  if scan.2 ≠ col then
    if val ≠ default then insert B scan.1 row col val else .ok B
  else if val = default then remove B scan.1 row
  else do
    let vals ← deref B.vals
    let vals' ← setAt vals scan.1 val
    .ok { B with vals := some vals' }

/-- A run of calls `set(val, row, col)`. -/
def setAll (B : SparseMatrix T) : List (SetCall T) → Exec (SparseMatrix T)
  | [] => .ok B
  | c :: cs => do
    let B' ← set B c.val c.row c.col
    setAll B' cs

end Wtfsc.Matrix
