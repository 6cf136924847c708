/-
  Wtfsc.ParallelSparseMatrix.SparseMatrix — the compressed-row matrix of
  src/parallel-sparse-matrix/sparse_matrix.h.

  `vals` and `cols` are pointers to vectors, null until the first value is stored;
  `rows` holds the `m + 1` row pointers. `T()` is `default` and `==` is equality. Row
  pointers and positions are `int`s: where one is counted up it may overflow, and the size
  of a vector is narrowed to an `int` where the code does so. A position below a row
  pointer has room to be counted up to it.
-/

import Wtfsc.Cpp

namespace Wtfsc.ParallelSparseMatrix

open Wtfsc.Cpp

structure SparseMatrix (T : Type) where
  m : Int
  n : Int
  vals : Option (List T)
  rows : List Int
  cols : Option (List Int)
  deriving DecidableEq, Repr

variable {T : Type} [Inhabited T]

/-- `SparseMatrix(int rows, int columns)` -/
def construct (rows columns : Int) : Exec (SparseMatrix T) :=
  if rows < 1 ∨ columns < 1 then .error (.throws "Matrix dimensions cannot be zero or negative.")
  else do
    let size ← addInt rows 1
    .ok { m := rows, n := columns, vals := none, rows := List.replicate size.toNat 0, cols := none }

/-- The scan of `get`, `k` positions from `pos` on. -/
def getLoop (A : SparseMatrix T) (col : Int) : Nat → Int → Exec T
  | 0, _ => .ok default
  | k + 1, pos => do
    let cols ← deref A.cols
    let curCol ← at_ cols pos
    if curCol = col then do
      let vals ← deref A.vals
      at_ vals pos
    else if curCol > col then .ok default
    else getLoop A col k (pos + 1)

def get (A : SparseMatrix T) (row col : Int) : Exec T := do
  let rowStart ← at_ A.rows row
  let rowEnd ← at_ A.rows (row + 1)
  getLoop A col (rowEnd - rowStart).toNat rowStart

/-- The scan of `set`: where it stops and the last column it read. -/
def setLoop (A : SparseMatrix T) (col : Int) : Nat → Int → Int → Exec (Int × Int)
  | 0, pos, curCol => .ok (pos, curCol)
  | k + 1, pos, _ => do
    let cols ← deref A.cols
    let curCol ← at_ cols pos
    if curCol ≥ col then .ok (pos, curCol) else setLoop A col k (pos + 1) curCol

/-- `for (; i <= m; i++) rows[i] += d`, with `k` indices to go. -/
def shiftRows (d : Int) : Nat → Int → List Int → Exec (List Int)
  | 0, _, rows => .ok rows
  | k + 1, i, rows => do
    let r ← at_ rows i
    let r' ← addInt r d
    let rows' ← setAt rows i r'
    let i' ← addInt i 1
    shiftRows d k i' rows'

def insert (A : SparseMatrix T) (index row col : Int) (val : T) : Exec (SparseMatrix T) := do
  let stored ← match A.vals with
    | none => .ok ([val], [col])
    | some vals => do
      let vals' ← insertAt vals index val
      let cols ← deref A.cols
      let cols' ← insertAt cols index col
      .ok (vals', cols')
  let rows ← shiftRows 1 (A.m - row).toNat (row + 1) A.rows
  .ok { A with vals := some stored.1, cols := some stored.2, rows := rows }

def remove (A : SparseMatrix T) (index row : Int) : Exec (SparseMatrix T) := do
  let vals ← deref A.vals
  let vals' ← eraseAt vals index
  let cols ← deref A.cols
  let cols' ← eraseAt cols index
  let rows ← shiftRows (-1) (A.m - row).toNat (row + 1) A.rows
  .ok { A with vals := some vals', cols := some cols', rows := rows }

section Product

variable [Add T] [Mul T]

/-- The products of a row, `k` positions from `j` on; `multiply` and `multiplyRow` both spell this loop out. -/
def sumLoop (A : SparseMatrix T) (x : List T) : Nat → Int → T → Exec T
  | 0, _, sum => .ok sum
  | k + 1, j, sum => do
    let cols ← deref A.cols
    let colIdx ← at_ cols j
    let vals ← deref A.vals
    let v ← at_ vals j
    let w ← at_ x colIdx
    sumLoop A x k (j + 1) (sum + v * w)

def rowSum (A : SparseMatrix T) (i : Int) (x : List T) : Exec T := do
  let rowStart ← at_ A.rows i
  let rowEnd ← at_ A.rows (i + 1)
  sumLoop A x (rowEnd - rowStart).toNat rowStart default

/-- `result[i] = sum` for `k` rows from `i` on. -/
def multiplyLoop (A : SparseMatrix T) (x : List T) : Nat → Int → List T → Exec (List T)
  | 0, _, result => .ok result
  | k + 1, i, result => do
    let sum ← rowSum A i x
    let result' ← setAt result i sum
    multiplyLoop A x k (i + 1) result'

def sizeMismatch : Fault := .throws "Cannot multiply: Matrix column count and vector size don't match."

def multiply (A : SparseMatrix T) (x : List T) : Exec (List T) :=
  if A.n ≠ int32 x.length then .error sizeMismatch
  else
    let result := List.replicate A.m.toNat default
    if A.vals = none then .ok result else multiplyLoop A x A.m.toNat 0 result

def multiplyRow (A : SparseMatrix T) (i : Int) (x : List T) : Exec T :=
  if A.n ≠ int32 x.length then .error sizeMismatch
  else if A.vals = none then .ok default else rowSum A i x

end Product

variable [DecidableEq T]

def set (A : SparseMatrix T) (row col : Int) (val : T) : Exec (SparseMatrix T) := do
  let rowStart ← at_ A.rows row
  let rowEnd ← at_ A.rows (row + 1)
  let scan ← setLoop A col (rowEnd - rowStart).toNat rowStart (-1)
  if scan.2 ≠ col then
    if val ≠ default then insert A scan.1 row col val else .ok A
  else if val = default then remove A scan.1 row
  else do
    let vals ← deref A.vals
    let vals' ← setAt vals scan.1 val
    .ok { A with vals := some vals' }

/-- A call `set(row, col, val)`. -/
structure SetCall (T : Type) where
  row : Int
  col : Int
  val : T
  deriving DecidableEq, Repr

def setAll (A : SparseMatrix T) : List (SetCall T) → Exec (SparseMatrix T)
  | [] => .ok A
  | c :: cs => do
    let A' ← set A c.row c.col c.val
    setAll A' cs

end Wtfsc.ParallelSparseMatrix
