/-
  Wtfsc.MemoryPool.Pool — the allocator of src/memory_pool/MemoryPool.h.

  The heap maps the id of each block obtained from `malloc` to the block; ids are not
  used again, so a pointer to a freed block dangles for good and following it is
  undefined behaviour. A pointer into a block is the block's id and a distance in bytes
  from its start: 48 bytes of block header (kept as fields), then units, each a
  16-byte header and its payload. `size_t` arithmetic wraps at 2^64, and an access
  outside the bytes `malloc` was asked for is undefined behaviour.
-/

import Mathlib.Logic.Function.Basic
import Wtfsc.Cpp

namespace Wtfsc.MemoryPool

open Function
open Wtfsc.Cpp

/-- `sizeof(SMemoryBlockHeader)` -/
def blockHeaderSize : Nat := 48

/-- `sizeof(SMemoryUnitHeader)` -/
def unitHeaderSize : Nat := 16

/-- `SMemoryUnitHeader` -/
structure UnitHeader where
  length : Nat
  container : Nat
  deriving DecidableEq, Repr

/-- A byte of memory: not written yet, data, or byte `i` of a unit header. -/
inductive Cell where
  | undef
  | data (b : UInt8)
  | unit (u : UnitHeader) (i : Nat)
  deriving DecidableEq, Repr

/-- `SMemoryBlockHeader`, how many bytes `malloc` was asked for, and what they hold. -/
structure Block where
  blockSize : Nat
  offset : Nat
  next : Option Nat
  prev : Option Nat
  numberOfAllocated : Nat
  numberOfDeleted : Nat
  bytes : Nat
  mem : Nat → Cell

structure Ptr where
  block : Nat
  off : Nat
  deriving DecidableEq, Repr

structure Pool where
  heap : Nat → Option Block
  fresh : Nat
  firstBlock : Option Nat
  currentBlock : Option Nat
  defaultBlockSize : Nat

abbrev PoolM := ExecM Pool

/-- Read the block a pointer designates. -/
def load (p : Option Nat) : PoolM Block := fun s =>
  match p.bind s.heap with
  | some b => .ok b s
  | none => .error .ub s

/-- Change the block a pointer designates. -/
def store (p : Option Nat) (f : Block → Block) : PoolM Unit := fun s =>
  match p with
  | none => .error .ub s
  | some id =>
    match s.heap id with
    | some b => .ok () { s with heap := update s.heap id (some (f b)) }
    | none => .error .ub s

def free (id : Nat) : PoolM Unit := modify fun s => { s with heap := update s.heap id none }

/-- The unit header at `off`, when its 16 bytes hold one. -/
def unitAt (mem : Nat → Cell) (off : Nat) : Option UnitHeader :=
  match mem off with
  | .unit u _ => if ∀ i < unitHeaderSize, mem (off + i) = .unit u i then some u else none
  | _ => none

def readUnit (p : Ptr) : PoolM UnitHeader := do
  let b ← load (some p.block)
  match unitAt b.mem p.off with
  | some u => pure u
  | none => throw .ub

def putUnit (mem : Nat → Cell) (off : Nat) (u : UnitHeader) : Nat → Cell := fun k =>
  if off ≤ k ∧ k < off + unitHeaderSize then .unit u (k - off) else mem k

def writeUnit (p : Ptr) (u : UnitHeader) : PoolM Unit := do
  let b ← load (some p.block)
  if p.off + unitHeaderSize ≤ b.bytes then store (some p.block) fun b => { b with mem := putUnit b.mem p.off u }
  else throw .ub

/-- `createMemoryBlock(block_size)`; `avail` tells whether `malloc` succeeds. -/
def createMemoryBlock (blockSize : Nat) (avail : Bool) : PoolM Unit := do
  let bytes := size64 (blockHeaderSize + blockSize : Nat)
  if !avail then throw (.throws "CANNOT_CREATE_BLOCK")
  if bytes < blockHeaderSize then throw .ub
  let s ← get
  let block := s.fresh
  let b : Block :=
    { blockSize := blockSize, offset := 0, next := none, prev := none, numberOfAllocated := 0, numberOfDeleted := 0
      bytes := bytes, mem := fun _ => .undef }
  if s.firstBlock.isSome then
    set { s with fresh := s.fresh + 1, heap := update s.heap block (some { b with prev := s.currentBlock }) }
    store s.currentBlock fun c => { c with next := some block }
    modify fun s => { s with currentBlock := some block }
  else
    set { s with
      fresh := s.fresh + 1
      heap := update s.heap block (some b)
      firstBlock := some block
      currentBlock := some block }

/-- `MemoryPool(block_size)` -/
def construct (blockSize : Nat) (avail : Bool) : EStateM.Result Fault Pool Unit :=
  createMemoryBlock blockSize avail ⟨fun _ => none, 0, none, none, blockSize⟩

/-- `allocatesize(size)` up to the place of the new unit. -/
def chooseBlock (size : Nat) (avail : Bool) : PoolM Unit := do
  let s ← get
  let cur ← load s.currentBlock
  if size64 (size + unitHeaderSize : Nat) < size64 ((cur.blockSize : Int) - cur.offset) then pure ()
  else if size64 (size + unitHeaderSize : Nat) ≥ s.defaultBlockSize then
    createMemoryBlock (size64 (size + unitHeaderSize : Nat)) avail
  else createMemoryBlock s.defaultBlockSize avail

/-- The rest of `allocatesize(size)`: add the unit to the current block. -/
def addUnit (size : Nat) : PoolM Ptr := do
  let s ← get
  let some container := s.currentBlock | throw .ub
  let cur ← load container
  let unit : Ptr := ⟨container, blockHeaderSize + cur.offset⟩
  writeUnit unit ⟨size, container⟩
  store container fun c => { c with numberOfAllocated := size64 (c.numberOfAllocated + 1 : Nat) }
  store container fun c => { c with offset := size64 (c.offset + size64 (unitHeaderSize + size : Nat) : Nat) }
  pure ⟨container, unit.off + unitHeaderSize⟩

def allocatesize (size : Nat) (avail : Bool) : PoolM Ptr := do
  chooseBlock size avail
  addUnit size

/-- `allocate(n)` for elements of `sizeofT` bytes. -/
def allocate (sizeofT n : Nat) (avail : Bool) : PoolM Ptr := allocatesize (size64 (n * sizeofT : Nat)) avail

/-- Take `block` out of the chain and free it. -/
def removeBlock (block : Nat) : PoolM Unit := do
  let s ← get
  let b ← load (some block)
  if some block = s.firstBlock then
    set { s with firstBlock := b.next }
    store b.next fun c => { c with prev := none }
  else if some block = s.currentBlock then
    set { s with currentBlock := b.prev }
    store b.prev fun c => { c with next := none }
  else
    store b.prev fun c => { c with next := b.next }
    let b ← load (some block)
    store b.next fun c => { c with prev := b.prev }
  free block

/-- Give back the room of the unit at `unit`. -/
def releaseUnit (unit : Ptr) (u : UnitHeader) : PoolM Unit := do
  let block := u.container
  let b ← load (some block)
  -- last in block: reset the offset
  if (⟨block, blockHeaderSize + b.offset⟩ : Ptr) = ⟨unit.block, unit.off + unitHeaderSize + u.length⟩ then
    store (some block) fun b => { b with
      offset := size64 ((b.offset : Int) - size64 (unitHeaderSize + u.length : Nat))
      numberOfAllocated := size64 ((b.numberOfAllocated : Int) - 1) }
  else store (some block) fun b => { b with numberOfDeleted := size64 (b.numberOfDeleted + 1 : Nat) }

/-- Remove `block` if nothing is left in it and it is not the only one. -/
def removeIfUnused (block : Nat) : PoolM Unit := do
  let s ← get
  let b ← load (some block)
  if s.currentBlock ≠ s.firstBlock ∧ (b.offset = 0 ∨ b.numberOfAllocated = b.numberOfDeleted) then removeBlock block

def deallocate : Option Ptr → PoolM Unit
  | none => pure ()
  | some p => do
    if p.off < unitHeaderSize then throw .ub
    let unit : Ptr := ⟨p.block, p.off - unitHeaderSize⟩
    let u ← readUnit unit
    releaseUnit unit u
    removeIfUnused u.container

/-! ## Clients -/

/-- An allocation its client has not freed: where it is and how many bytes were asked for. -/
structure Live where
  ptr : Ptr
  length : Nat
  deriving DecidableEq, Repr

/-- A pool and what its client holds. -/
structure Client where
  pool : Pool
  live : List Live

inductive Op where
  | allocate (n : Nat) (avail : Bool)
  | deallocate (u : Live)
  /-- The client writes a byte of an allocation. -/
  | write (u : Live) (i : Nat) (v : UInt8)

def setByte (p : Ptr) (i : Nat) (v : UInt8) : PoolM Unit :=
  store (some p.block) fun b => { b with mem := update b.mem (p.off + i) (.data v) }

/-- What a client may do: its sizes do not overflow, it frees and writes what it holds. -/
def Valid (sizeofT : Nat) (c : Client) : Op → Prop
  | .allocate n _ => n * sizeofT + unitHeaderSize + blockHeaderSize < 2 ^ 64
  | .deallocate u => u ∈ c.live
  | .write u i _ => u ∈ c.live ∧ i < u.length

instance (sizeofT : Nat) (c : Client) (op : Op) : Decidable (Valid sizeofT c op) :=
  match op with
  | .allocate _ _ => inferInstanceAs (Decidable (_ < _))
  | .deallocate _ => inferInstanceAs (Decidable (_ ∈ _))
  | .write _ _ _ => inferInstanceAs (Decidable (_ ∧ _))

/-- One call; a client catches what `allocate` throws. -/
def step (sizeofT : Nat) (c : Client) : Op → Exec Client
  | .allocate n avail =>
    match allocate sizeofT n avail c.pool with
    | .ok p s => .ok ⟨s, ⟨p, n * sizeofT⟩ :: c.live⟩
    | .error (.throws _) s => .ok ⟨s, c.live⟩
    | .error .ub _ => .error .ub
  | .deallocate u =>
    match deallocate (some u.ptr) c.pool with
    | .ok _ s => .ok ⟨s, c.live.erase u⟩
    | .error e _ => .error e
  | .write u i v =>
    match setByte u.ptr i v c.pool with
    | .ok _ s => .ok ⟨s, c.live⟩
    | .error e _ => .error e

/-- The calls `ops` one after another, as long as they keep the rules. -/
def run (sizeofT : Nat) : Client → List Op → Option Client
  | c, [] => some c
  | c, op :: ops =>
    if Valid sizeofT c op then
      match step sizeofT c op with
      | .ok c' => run sizeofT c' ops
      | .error _ => none
    else none

/-- The states of a pool made with `block_size` and used within the rules. -/
inductive Reach (blockSize sizeofT : Nat) : Client → Prop
  | init {s : Pool} (h : construct blockSize true = .ok () s) : Reach blockSize sizeofT ⟨s, []⟩
  | step {c c' : Client} (op : Op) (h : Reach blockSize sizeofT c) (hv : Valid sizeofT c op)
      (hs : step sizeofT c op = .ok c') : Reach blockSize sizeofT c'

end Wtfsc.MemoryPool
