/-
  Wtfsc.Matrix.Copies — copying the matrices of src/matrix/sparse_matrix.cpp, with `vals`,
  `rows` and `cols` as the raw pointers they are.

  A program has matrices under names and makes, copies, assigns, changes and destroys them.
  The copy constructor initializes no member before it calls `deepCopy`; `operator=` first
  runs `destruct` and then `deepCopy` on the same object. What `view` reads through the
  pointers is the matrix of `Wtfsc.Matrix.SparseMatrix`; `get` and the scan of `set` work
  on it, and a write goes to the vector pointed to.
-/

import Wtfsc.Lib.Cells
import Wtfsc.Matrix.SparseMatrix

namespace Wtfsc.Matrix.Copies

open Function
open Wtfsc.Cells
open Wtfsc.Cpp
open Wtfsc.ParallelSparseMatrix (SparseMatrix setLoop shiftRows)

/-- A `std::vector` on the heap. -/
inductive Vec (T : Type) where
  | ints (v : List Int)
  | vals (v : List T)
  deriving DecidableEq, Repr

structure Obj where
  m : Int
  n : Int
  vals : Ptr
  rows : Ptr
  cols : Ptr
  deriving DecidableEq, Repr

/-- No member has been initialized. -/
def Obj.raw : Obj := ⟨0, 0, .uninit, .uninit, .uninit⟩

variable {T : Type}

def Vec.ints? : Vec T → Option (List Int)
  | .ints v => some v
  | .vals _ => none

def Vec.vals? : Vec T → Option (List T)
  | .vals v => some v
  | .ints _ => none

def intsAt (h : Heap (Vec T)) : Ptr → Option (List Int)
  | .to a => (h.cell a).bind Vec.ints?
  | _ => none

def valsAt (h : Heap (Vec T)) : Ptr → Option (List T)
  | .to a => (h.cell a).bind Vec.vals?
  | _ => none

/-- The matrix behind the pointers. `rows` is only ever indexed, and no index is inside a vector that is not there. -/
def view (h : Heap (Vec T)) (o : Obj) : SparseMatrix T :=
  { m := o.m, n := o.n, vals := valsAt h o.vals, rows := (intsAt h o.rows).getD [], cols := intsAt h o.cols }

def construct (h : Heap (Vec T)) (rows columns : Int) : Exec (Heap (Vec T) × Obj) :=
  if rows < 1 ∨ columns < 1 then .error (.throws "Matrix dimensions cannot be zero or negative.")
  else do
    let size ← addInt rows 1
    let r := new h (.ints (List.replicate size.toNat 1))
    .ok (r.1, ⟨rows, columns, .null, r.2, .null⟩)

def deepCopy (h : Heap (Vec T)) (this matrix : Obj) : Exec (Heap (Vec T) × Obj) := do
  let rows ← deref (intsAt h matrix.rows)
  let r := new h (.ints rows)
  let this := { this with m := matrix.m, n := matrix.n, rows := r.2 }
  let null ← isNull matrix.vals
  if null then .ok (r.1, this)
  else do
    let cols ← deref (intsAt r.1 matrix.cols)
    let c := new r.1 (.ints cols)
    let vals ← deref (valsAt c.1 matrix.vals)
    let v := new c.1 (.vals vals)
    .ok (v.1, { this with cols := c.2, vals := v.2 })

def destruct (h : Heap (Vec T)) (this : Obj) : Exec (Heap (Vec T)) := do
  let null ← isNull this.vals
  let h ← if null then .ok h
    else do
      let h ← delete h this.vals
      delete h this.cols
  delete h this.rows

def insert (h : Heap (Vec T)) (this : Obj) (index row col : Int) (val : T) : Exec (Heap (Vec T) × Obj) := do
  let null ← isNull this.vals
  let r ← if null then
      let v := new h (.vals [val])
      let c := new v.1 (.ints [col])
      .ok (c.1, { this with vals := v.2, cols := c.2 })
    else do
      let vals ← deref (valsAt h this.vals)
      let vals' ← insertAt vals index val
      let h ← store h this.vals (.vals vals')
      let cols ← deref (intsAt h this.cols)
      let cols' ← insertAt cols index col
      let h ← store h this.cols (.ints cols')
      .ok (h, this)
  let rows ← deref (intsAt r.1 r.2.rows)
  let rows' ← shiftRows 1 (r.2.m + 1 - row).toNat row rows
  let h ← store r.1 r.2.rows (.ints rows')
  .ok (h, r.2)

def remove (h : Heap (Vec T)) (this : Obj) (index row : Int) : Exec (Heap (Vec T) × Obj) := do
  let vals ← deref (valsAt h this.vals)
  let vals' ← eraseAt vals index
  let h ← store h this.vals (.vals vals')
  let cols ← deref (intsAt h this.cols)
  let cols' ← eraseAt cols index
  let h ← store h this.cols (.ints cols')
  let rows ← deref (intsAt h this.rows)
  let rows' ← shiftRows (-1) (this.m + 1 - row).toNat row rows
  let h ← store h this.rows (.ints rows')
  .ok (h, this)

variable [Inhabited T]

def get (h : Heap (Vec T)) (this : Obj) (row col : Int) : Exec T := Matrix.get (view h this) row col

variable [DecidableEq T]

def set (h : Heap (Vec T)) (this : Obj) (val : T) (row col : Int) : Exec (Heap (Vec T) × Obj) := do
  let _ ← validateCoordinates (view h this) row col
  let rowStart ← at_ (view h this).rows (row - 1)
  let rowEnd ← at_ (view h this).rows row
  let scan ← setLoop (view h this) col (rowEnd - 1 - (rowStart - 1)).toNat (rowStart - 1) 0
  if scan.2 ≠ col then
    if val ≠ default then insert h this scan.1 row col val else .ok (h, this)
  else if val = default then remove h this scan.1 row
  else do
    let vals ← deref (valsAt h this.vals)
    let vals' ← setAt vals scan.1 val
    let h ← store h this.vals (.vals vals')
    .ok (h, this)

/-! ## Programs -/

structure State (T : Type) where
  heap : Heap (Vec T)
  obj : Nat → Option Obj

def State.empty : State T := ⟨.empty, fun _ => none⟩

inductive Op (T : Type) where
  | construct (k : Nat) (rows columns : Int)
  /-- `SparseMatrix k(j)` -/
  | copy (k j : Nat)
  /-- `k = j` -/
  | assign (k j : Nat)
  | set (k : Nat) (val : T) (row col : Int)
  | destroy (k : Nat)
  deriving DecidableEq, Repr

def State.put (s : State T) (k : Nat) (r : Heap (Vec T) × Obj) : State T := ⟨r.1, update s.obj k (some r.2)⟩

def perform (s : State T) : Op T → Exec (State T)
  | .construct k rows columns => do
    let r ← construct s.heap rows columns
    .ok (s.put k r)
  | .copy k j => do
    let matrix ← deref (s.obj j)
    let r ← deepCopy s.heap .raw matrix
    .ok (s.put k r)
  | .assign k j =>
    if j = k then .ok s
    else do
      let this ← deref (s.obj k)
      let matrix ← deref (s.obj j)
      let h ← destruct s.heap this
      let r ← deepCopy h this matrix
      .ok (s.put k r)
  | .set k val row col => do
    let this ← deref (s.obj k)
    let r ← set s.heap this val row col
    .ok (s.put k r)
  | .destroy k => do
    let this ← deref (s.obj k)
    let h ← destruct s.heap this
    .ok ⟨h, update s.obj k none⟩

/-- The program catches what is thrown; both checks come before anything is changed. -/
def step (s : State T) (op : Op T) : Exec (State T) :=
  match perform s op with
  | .error (.throws _) => .ok s
  | r => r

end Wtfsc.Matrix.Copies
