/-
  Wtfsc.MemoryPool.PoolLifetime — pools made, moved and destroyed (see `Wtfsc.MemoryPool.Pool`).

  `malloc` serves all pools of a program, so there is one heap and each `MemoryPool` is
  two pointers into it and a size. A move construction hands the pointers over; the pool
  moved from has none. `~MemoryPool` walks the chain and frees each block.
-/

import Wtfsc.MemoryPool.Pool

namespace Wtfsc.MemoryPool

open Function
open Wtfsc.Cpp

/-- `MEMORYPOOL_DEFAULT_BLOCK_SIZE` -/
def memorypoolDefaultBlockSize : Nat := 1024 * 1024

/-- The loop of `~MemoryPool`; a walk of more than `fuel` blocks does not end. -/
def freeBlocks : Nat → Option Nat → PoolM Unit
  | _, none => pure ()
  | 0, some _ => throw .ub
  | fuel + 1, some block => do
    let b ← load (some block)
    free block
    freeBlocks fuel b.next

/-- `~MemoryPool()` -/
def destruct : PoolM Unit := do
  let s ← get
  freeBlocks s.fresh s.firstBlock

/-- The members of a `MemoryPool`. -/
structure Object where
  firstBlock : Option Nat
  currentBlock : Option Nat
  defaultBlockSize : Nat
  deriving DecidableEq, Repr

/-- `MemoryPool(MemoryPool&& other)`: the new pool and what is left in `other`. -/
def moveConstruct (other : Object) : Object × Object := (other, ⟨none, none, memorypoolDefaultBlockSize⟩)

/-! ## Programs -/

/-- The heap, and the pools there are, each with what its clients hold. -/
structure Machine where
  heap : Nat → Option Block
  fresh : Nat
  objects : Nat → Option (Object × List Live)

def Machine.start : Machine := ⟨fun _ => none, 0, fun _ => none⟩

/-- The pool `o` with the heap of the program. -/
def Machine.pool (m : Machine) (o : Object) : Pool := ⟨m.heap, m.fresh, o.firstBlock, o.currentBlock, o.defaultBlockSize⟩

/-- The program after a member function of the pool `k`. -/
def Machine.put (m : Machine) (k : Nat) (s : Pool) (live : List Live) : Machine where
  heap := s.heap
  fresh := s.fresh
  objects := update m.objects k (some (⟨s.firstBlock, s.currentBlock, s.defaultBlockSize⟩, live))

inductive Act where
  | construct (k blockSize : Nat) (avail : Bool)
  | call (k : Nat) (op : Op)
  | moveConstruct (k other : Nat)
  | moveAssign (k other : Nat)
  | destroy (k : Nat)

def Machine.step (sizeofT : Nat) (m : Machine) : Act → Exec Machine
  | .construct k blockSize avail =>
    match createMemoryBlock blockSize avail (m.pool ⟨none, none, blockSize⟩) with
    | .ok _ s => .ok (m.put k s [])
    | .error (.throws _) s => .ok { m with heap := s.heap, fresh := s.fresh }
    | .error .ub _ => .error .ub
  | .call k op => do
    let (o, live) ← deref (m.objects k)
    let c ← MemoryPool.step sizeofT ⟨m.pool o, live⟩ op
    pure (m.put k c.pool c.live)
  | .moveConstruct k other => do
    let (o, live) ← deref (m.objects other)
    let (new, old) := MemoryPool.moveConstruct o
    pure { m with objects := update (update m.objects other (some (old, []))) k (some (new, live)) }
  | .moveAssign k other => if k = other then pure m else throw .ub -- the function ends without a `return`
  | .destroy k => do
    let (o, _) ← deref (m.objects k)
    match destruct (m.pool o) with
    | .ok _ s => pure { heap := s.heap, fresh := s.fresh, objects := update m.objects k none }
    | .error e _ => throw e

/-- A call keeps the rules of a client, and it is not one of a pool that has been moved from. -/
def MayCall (sizeofT : Nat) (m : Machine) (op : Op) : Option (Object × List Live) → Prop
  | some (o, live) => o.firstBlock ≠ none ∧ Valid sizeofT ⟨m.pool o, live⟩ op
  | none => False

instance (sizeofT : Nat) (m : Machine) (op : Op) (o? : Option (Object × List Live)) :
    Decidable (MayCall sizeofT m op o?) :=
  match o? with
  | some (_, _) => inferInstanceAs (Decidable (_ ∧ _))
  | none => inferInstanceAs (Decidable False)

/-- What a program may do: a pool is made where there is none, with a size that does not wrap, it is called, moved to where
there is none, assigned to itself, and destroyed. -/
def Allowed (sizeofT : Nat) (m : Machine) : Act → Prop
  | .construct k blockSize _ => m.objects k = none ∧ blockHeaderSize + blockSize < 2 ^ 64
  | .call k op => MayCall sizeofT m op (m.objects k)
  | .moveConstruct k other => m.objects k = none ∧ m.objects other ≠ none
  | .moveAssign k other => k = other ∧ m.objects k ≠ none
  | .destroy k => m.objects k ≠ none

instance (sizeofT : Nat) (m : Machine) (act : Act) : Decidable (Allowed sizeofT m act) :=
  match act with
  | .construct _ _ _ => inferInstanceAs (Decidable (_ ∧ _))
  | .call k op => inferInstanceAs (Decidable (MayCall sizeofT m op (m.objects k)))
  | .moveConstruct _ _ => inferInstanceAs (Decidable (_ ∧ _))
  | .moveAssign _ _ => inferInstanceAs (Decidable (_ ∧ _))
  | .destroy _ => inferInstanceAs (Decidable (_ ≠ _))

/-- The actions `acts` one after another, as long as they are allowed. -/
def Machine.run (sizeofT : Nat) : Machine → List Act → Option Machine
  | m, [] => some m
  | m, act :: acts =>
    if Allowed sizeofT m act then
      match m.step sizeofT act with
      | .ok m' => m'.run sizeofT acts
      | .error _ => none
    else none

/-- The heap and the pool `k` after the calls `ops` of that pool. -/
def Machine.calls (sizeofT : Nat) (m : Machine) (k : Nat) (ops : List Op) :
    Option ((Nat → Option Block) × Nat × Option (Object × List Live)) :=
  (m.run sizeofT (ops.map (.call k))).map fun m' => (m'.heap, m'.fresh, m'.objects k)

/-- The states of a program that keeps to what is allowed. -/
inductive Ran (sizeofT : Nat) : Machine → Prop
  | start : Ran sizeofT .start
  | step {m m' : Machine} (act : Act) (h : Ran sizeofT m) (ha : Allowed sizeofT m act) (hs : m.step sizeofT act = .ok m') :
      Ran sizeofT m'

end Wtfsc.MemoryPool
