/-
  Wtfsc.MemoryPool.PoolVector — `Vector<T, MemoryPool<T>>` (src/memory_pool/Vector.h on
  src/memory_pool/MemoryPool.h), for a `T` that is its bytes.

  The vector has a pool of its own. Its elements are written to and read from the bytes of
  the unit that `first_` points to, so `construct` of a value is a write of its bytes and
  `destroy` does nothing. A write outside its block is undefined behaviour. The copying and
  moving members are for vectors with the standard allocator and cannot be called.
-/

import Wtfsc.Disk.DiskVector
import Wtfsc.MemoryPool.PoolContents
import Wtfsc.MemoryPool.PoolLifetime

namespace Wtfsc.MemoryPool

open Function
open Wtfsc.Cpp
open Wtfsc.Disk (Layout Bytes)

/-! ## Elements in units -/

/-- `p + n` -/
def Ptr.add (sizeofT : Nat) (p : Ptr) (n : Nat) : Ptr := ⟨p.block, p.off + n * sizeofT⟩

/-- `p - q`, within one block and by whole elements. -/
def Ptr.sub (sizeofT : Nat) (p q : Ptr) : Exec Nat :=
  if p.block = q.block ∧ q.off ≤ p.off ∧ sizeofT ∣ p.off - q.off then .ok ((p.off - q.off) / sizeofT) else .error .ub

def writeByte (p : Ptr) (i : Nat) (v : UInt8) : PoolM Unit := do
  let b ← load (some p.block)
  if p.off + i < b.bytes then setByte p i v else throw .ub

/-- The first `n` bytes of `bytes` go to where `p` points. -/
def writeBytes (p : Ptr) (bytes : Bytes) : Nat → PoolM Unit
  | 0 => pure ()
  | n + 1 => do
    writeBytes p bytes n
    writeByte p n (bytes n)

def readBytes (p : Ptr) : Nat → PoolM Bytes
  | 0 => pure fun _ => 0
  | n + 1 => do
    let bytes ← readBytes p n
    let v ← readByte p n
    pure (update bytes n v)

variable {T : Type} (L : Layout T)

/-- `construct(p, val)` -/
def constructElement (p : Ptr) (val : T) : PoolM Unit := writeBytes p (L.toBytes val) L.size

/-- `*p` -/
def readElement (p : Ptr) : PoolM T := do
  let bytes ← readBytes p L.size
  pure (L.ofBytes bytes)

def ofExec {σ α : Type} : Exec α → ExecM σ α
  | .ok a => pure a
  | .error e => throw e

/-- `for (int i = 0; i < size; ++i) construct(dst + i, val)`, with `left` rounds to go at `i`. -/
def constructLoop (val : Nat → PoolM T) (dst : Ptr) : Nat → Nat → PoolM Unit
  | 0, _ => pure ()
  | left + 1, i => do
    let x ← val i
    constructElement L (dst.add L.size i) x
    let i' ← ofExec (inc i)
    constructLoop val dst left i'

/-! ## The vector -/

structure PoolVector where
  pool : Pool
  first : Ptr
  last : Ptr
  end_ : Ptr

abbrev VectorM := ExecM PoolVector

/-- A call of the allocator, or an access of the memory it gave. -/
def inPool {α : Type} (x : PoolM α) : VectorM α := fun v =>
  match x v.pool with
  | .ok a s => .ok a { v with pool := s }
  | .error e s => .error e { v with pool := s }

namespace PoolVector

def full (v : PoolVector) : Bool := v.last == v.end_

def isEmpty (v : PoolVector) : Bool := v.first == v.last

def size (v : PoolVector) : Exec Nat := v.last.sub L.size v.first

def capacity (v : PoolVector) : Exec Nat := v.end_.sub L.size v.first

/-- The end of a constructor: `first_` is the storage of `cap` elements, `len` of which are there. -/
def made (pool : Pool) (first : Ptr) (len cap : Nat) : PoolVector := ⟨pool, first, first.add L.size len, first.add L.size cap⟩

/-- `Vector()`, its pool made before: `avail` tells whether the `malloc` of the storage succeeds. -/
def new (avail : Bool) : PoolM PoolVector := do
  let first ← allocate L.size 1 avail
  let pool ← get
  pure (made L pool first 0 1)

/-- `Vector(size_t size)` -/
def newSized (dflt : T) (size : Nat) (avail : Bool) : PoolM PoolVector := do
  let first ← allocate L.size (shl1 size) avail
  constructLoop L (fun _ => pure dflt) first size 0
  let pool ← get
  pure (made L pool first size (shl1 size))

/-- `Vector(std::initializer_list<T> init)` -/
def newInit (init : List T) (avail : Bool) : PoolM PoolVector := do
  let size := init.length
  let first ← allocate L.size (shl1 size) avail
  constructLoop L (fun i => ofExec (at_ init i)) first size 0
  let pool ← get
  pure (made L pool first size (shl1 size))

/-- The loop over `destroy` from `first_` to `last_`. -/
def destroyAll : VectorM Unit := do
  let v ← get
  let _ ← ofExec (v.size L)
  pure ()

/-- What `expand` and `reserve` have in common: storage for `n` elements, `count` elements copied there, the old storage
given back. -/
def regrow (n count : Nat) (avail : Bool) : VectorM Unit := do
  let v ← get
  let ptmp ← inPool (allocate L.size n avail)
  inPool (constructLoop L (fun i => readElement L (v.first.add L.size i)) ptmp count 0)
  destroyAll L
  inPool (deallocate (some v.first))
  modify fun v => ⟨v.pool, ptmp, ptmp.add L.size count, ptmp.add L.size n⟩

def expand (avail : Bool) : VectorM Unit := do
  let v ← get
  let size ← ofExec (v.capacity L)
  regrow L (shl1 size) size avail

def reserve (n : Nat) (avail : Bool) : VectorM Unit := do
  let v ← get
  let cap ← ofExec (v.capacity L)
  if n ≤ cap then pure ()
  else
    let len ← ofExec (v.size L)
    regrow L n len avail

def pushBack (val : T) (avail : Bool) : VectorM Unit := do
  let v ← get
  if v.full then expand L avail
  let v ← get
  inPool (constructElement L v.last val)
  modify fun v => { v with last := v.last.add L.size 1 }

def popBack : VectorM Unit := do
  let v ← get
  if v.isEmpty then pure ()
  else set { v with last := ⟨v.last.block, v.last.off - L.size⟩ }

def clear : VectorM Unit := do
  destroyAll L
  modify fun v => { v with last := v.first }

/-- `(*this)[pos]`, with its assertion. -/
def index (pos : Nat) : VectorM T := do
  let v ← get
  let size ← ofExec (v.size L)
  if pos < size then inPool (readElement L (v.first.add L.size pos)) else throw (.throws "assert")

/-- `(*this)[pos] = val` -/
def assignIndex (pos : Nat) (val : T) : VectorM Unit := do
  let v ← get
  let size ← ofExec (v.size L)
  if pos < size then inPool (constructElement L (v.first.add L.size pos) val) else throw (.throws "assert")

def back : VectorM T := do
  let v ← get
  inPool (readElement L ⟨v.last.block, v.last.off - L.size⟩)

/-- `~Vector()`, and then `~MemoryPool()` of its pool. -/
def destroy : VectorM Unit := do
  destroyAll L
  let v ← get
  inPool (deallocate (some v.first))
  inPool destruct

end PoolVector

/-! ## Programs with a vector -/

inductive VectorOp (T : Type) where
  | pushBack (val : T) (avail : Bool)
  | popBack
  | clear
  | reserve (n : Nat) (avail : Bool)
  | assignIndex (pos : Nat) (val : T)

def VectorOp.run : VectorOp T → VectorM Unit
  | .pushBack val avail => PoolVector.pushBack L val avail
  | .popBack => PoolVector.popBack L
  | .clear => PoolVector.clear L
  | .reserve n avail => PoolVector.reserve L n avail
  | .assignIndex pos val => PoolVector.assignIndex L pos val

/-- What a list, and a capacity beside it, do. -/
def VectorOp.onList : VectorOp T → List T × Nat → List T × Nat
  | .pushBack val _, (l, cap) => (l ++ [val], if l.length = cap then 2 * cap else cap)
  | .popBack, (l, cap) => (l.dropLast, cap)
  | .clear, (_, cap) => ([], cap)
  | .reserve n _, (l, cap) => (l, max n cap)
  | .assignIndex pos val, (l, cap) => (l.set pos val, cap)

/-- Storage for `n` elements is asked for without a wrap. -/
def Sized (n : Nat) : Prop := n * L.size + unitHeaderSize + blockHeaderSize < 2 ^ 64

/-- Where a call has to grow the vector: its elements can be counted by an `int` and the new storage asked for, and there is
a capacity to double. An index is below the size. -/
def VectorOp.Fits (l : List T) (cap : Nat) : VectorOp T → Prop
  | .pushBack _ _ => l.length = cap → 0 < cap ∧ cap < 2 ^ 31 ∧ Sized L (2 * cap)
  | .reserve n _ => cap < n → l.length < 2 ^ 31 ∧ Sized L n
  | .assignIndex pos _ => pos < l.length
  | .popBack | .clear => True

/-- `malloc` would fail if the call came to ask for storage. -/
def VectorOp.Starved : VectorOp T → Prop
  | .pushBack _ avail => avail = false
  | .reserve _ avail => avail = false
  | .popBack | .clear | .assignIndex _ _ => False

/-- A vector in a run, the list it should be and the capacity it should have. A call that throws is caught. -/
inductive Runs (blockSize : Nat) : PoolVector → List T → Nat → Prop
  | new {s s' : Pool} {v : PoolVector} (avail : Bool) (hpool : construct blockSize true = .ok () s) (hsize : Sized L 1)
      (h : PoolVector.new L avail s = .ok v s') : Runs blockSize v [] 1
  | newSized {s s' : Pool} {v : PoolVector} (dflt : T) (size : Nat) (avail : Bool)
      (hpool : construct blockSize true = .ok () s) (hlt : size < 2 ^ 31) (hsize : Sized L (2 * size))
      (h : PoolVector.newSized L dflt size avail s = .ok v s') : Runs blockSize v (List.replicate size dflt) (2 * size)
  | newInit {s s' : Pool} {v : PoolVector} (init : List T) (avail : Bool) (hpool : construct blockSize true = .ok () s)
      (hlt : init.length < 2 ^ 31) (hsize : Sized L (2 * init.length))
      (h : PoolVector.newInit L init avail s = .ok v s') : Runs blockSize v init (2 * init.length)
  | call {v v' : PoolVector} {l : List T} {cap : Nat} (op : VectorOp T) (hv : Runs blockSize v l cap)
      (hfits : op.Fits L l cap) (h : op.run L v = .ok () v') : Runs blockSize v' (op.onList (l, cap)).1 (op.onList (l, cap)).2
  | throws {v v' : PoolVector} {l : List T} {cap : Nat} {what : String} (op : VectorOp T) (hv : Runs blockSize v l cap)
      (hfits : op.Fits L l cap) (h : op.run L v = .error (.throws what) v') : Runs blockSize v' l cap

end Wtfsc.MemoryPool
