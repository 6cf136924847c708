/-
  Wtfsc.MemoryPool.VectorMembers — the members of `Vector<T>` statement by statement
  (src/memory_pool/Vector.h).

  `Wtfsc.MemoryPool.Vector` says what a call ends with. Here a member changes the heap and
  its own three pointers one statement after another (`Store`), so that a call an exception
  cuts short leaves what it had done by then: `allocate` throws where `fail` names an
  exception. The slots are checked for lifetimes: an element is constructed in a raw slot
  only, and a block given back with raw slots only. A constructor that throws makes no
  vector, and its first statement is the only one that can.

  `push_back` takes its argument by reference (`Arg`): a value elsewhere, or a slot, which
  is read when the new element is constructed. `pushOwn v i` is `v.push_back(v[i])`.
-/

import Wtfsc.MemoryPool.Vector

namespace Wtfsc.Container

open Function
open Wtfsc.Cpp Wtfsc.Slots

variable {T : Type}

/-- The heap and the vector that a member is called on. -/
structure Store (T : Type) where
  heap : Heap T
  vec : Vector

inductive Arg (T : Type) where
  | value (x : T)
  | slot (p : Ptr)

def Arg.read (h : Heap T) : Arg T → Exec T
  | .value x => .ok x
  | .slot p => load h p

inductive Call (T : Type) where
  | op (o : Op T)
  | pushOwn (v i : Nat)

namespace Checked

def ofExec {α : Type} (x : Exec α) : ExecM (Store T) α :=
  match x with
  | .ok a => pure a
  | .error e => throw e

def onHeap (f : Heap T → Exec (Heap T)) : ExecM (Store T) Unit := do
  let s ← get
  let h ← ofExec (f s.heap)
  set { s with heap := h }

def self : ExecM (Store T) Vector := do return (← get).vec

def setFirst (p : Ptr) : ExecM (Store T) Unit := modify fun s => { s with vec := { s.vec with first := p } }

def setLast (p : Ptr) : ExecM (Store T) Unit := modify fun s => { s with vec := { s.vec with last := p } }

def setEnd (p : Ptr) : ExecM (Store T) Unit := modify fun s => { s with vec := { s.vec with end_ := p } }

def allocateOr (fail : Option String) (n : Nat) : ExecM (Store T) Ptr :=
  match fail with
  | some what => throw (.throws what)
  | none => do
    let s ← get
    set { s with heap := (allocate s.heap n).1 }
    return (allocate s.heap n).2

/-- `for (int i = 0; i < size; ++i) construct(dst + i, val)`, with `left` rounds to go at `i`. -/
def fillLoop (val : Heap T → Nat → Exec T) (dst : Ptr) : Nat → Nat → Heap T → Exec (Heap T)
  | 0, _, h => .ok h
  | left + 1, i, h => do
    let h ← constructRaw h (dst.add i) (← val h i)
    fillLoop val dst left (← inc i) h

/-! ## Constructors and the destructor -/

def newSized (dflt : T) (h : Heap T) (size : Nat) : Exec (Heap T × Vector) := do
  let (h, first) := allocate h (shl1 size)
  let h ← fillLoop (fun _ _ => .ok dflt) first size 0 h
  return (h, ⟨first, first.add size, first.add (shl1 size)⟩)

def newCopy (h : Heap T) (other : Vector) : Exec (Heap T × Vector) := do
  let size ← other.capacity
  let (h, first) := allocate h size
  let len ← other.size
  let h ← fillLoop (fun h i => load h (other.first.add i)) first len 0 h
  return (h, ⟨first, first.add len, first.add size⟩)

def destruct (h : Heap T) (v : Vector) : Exec (Heap T) := do deallocateRaw (← destroyAll h v) v.first

/-! ## Members that allocate -/

def assignCopy (fail : Option String) (other : Vector) : ExecM (Store T) Unit := do
  let this ← self
  onHeap fun h => destroyAll h this
  onHeap fun h => deallocateRaw h this.first
  let size ← ofExec other.capacity
  let first ← allocateOr fail size
  setFirst first
  let len ← ofExec other.size
  onHeap fun h => fillLoop (fun h i => load h (other.first.add i)) first len 0 h
  setLast (first.add len)
  setEnd (first.add size)

/-- The elements move to the block `ptmp` of `size` slots; `reserve` and `expand` both spell this out. -/
def takeOver (ptmp : Ptr) (len size : Nat) : ExecM (Store T) Unit := do
  let this ← self
  onHeap fun h => fillLoop (fun h i => load h (this.first.add i)) ptmp len 0 h
  onHeap fun h => destroyAll h this
  onHeap fun h => deallocateRaw h this.first
  setFirst ptmp
  setLast (ptmp.add len)
  setEnd (ptmp.add size)

def reserve (fail : Option String) (n : Nat) : ExecM (Store T) Unit := do
  let this ← self
  if n ≤ (← ofExec this.capacity) then return
  let len ← ofExec this.size
  let ptmp ← allocateOr fail n
  takeOver ptmp len n

def expand (fail : Option String) : ExecM (Store T) Unit := do
  let this ← self
  let size ← ofExec this.capacity
  let ptmp ← allocateOr fail (shl1 size)
  takeOver ptmp size (shl1 size)

/-- `construct(last_, val); last_++` -/
def constructLast (val : Arg T) : ExecM (Store T) Unit := do
  let this ← self
  onHeap fun h => do constructRaw h this.last (← val.read h)
  setLast (this.last.add 1)

def pushBack (fail : Option String) (val : Arg T) : ExecM (Store T) Unit := do
  if (← self).full then expand fail
  constructLast val

/-! ## A program with vectors -/

/-- A constructor of `v`. -/
def made (fail : Option String) (s : State T) (v : Nat) (r : Exec (Heap T × Vector)) :
    EStateM.Result Fault (State T) Unit :=
  match fail, r with
  | some what, _ => .error (.throws what) s
  | none, .ok hv => .ok ⟨⟩ (s.set v hv)
  | none, .error e => .error e s

/-- A member called on `v`. -/
def member (s : State T) (v : Nat) (x : ExecM (Store T) Unit) : EStateM.Result Fault (State T) Unit :=
  match s.vecs v with
  | none => .error .ub s
  | some vec =>
    match x ⟨s.heap, vec⟩ with
    | .ok _ t => .ok ⟨⟩ (s.set v (t.heap, t.vec))
    | .error e t => .error e (s.set v (t.heap, t.vec))

/-- What neither allocates nor throws. -/
def plain (s : State T) (r : Exec (State T)) : EStateM.Result Fault (State T) Unit :=
  match r with
  | .ok s' => .ok ⟨⟩ s'
  | .error e => .error e s

section
variable (trivial : Bool) (dflt : T)

/-- The calls that `Container.step` makes of nothing but loads, destroys and moved pointers are its own. -/
def stepOp (fail : Option String) (s : State T) : Op T → EStateM.Result Fault (State T) Unit
  | .new v => made fail s v (.ok (new s.heap))
  | .newSized v size => made fail s v (newSized dflt s.heap size)
  | .newInit v init => made fail s v (newInit trivial s.heap init)
  | .newCopy v other => made fail s v do newCopy s.heap (← deref (s.vecs other))
  | .destruct v => plain s do
    let heap ← destruct s.heap (← deref (s.vecs v))
    return ⟨heap, update s.vecs v none⟩
  | .assignCopy v other =>
    if v = other then .ok ⟨⟩ s
    else member s v do
      let other ← ofExec (deref (s.vecs other))
      assignCopy fail other
  | .reserve v n => member s v (reserve fail n)
  | .pushBack v val => member s v (pushBack fail (.value val))
  | .newMove v other => plain s (Container.step trivial dflt s (.newMove v other))
  | .assignMove v other => plain s (Container.step trivial dflt s (.assignMove v other))
  | .popBack v => plain s (Container.step trivial dflt s (.popBack v))
  | .clear v => plain s (Container.step trivial dflt s (.clear v))

def step (fail : Option String) (s : State T) : Call T → EStateM.Result Fault (State T) Unit
  | .op o => stepOp trivial dflt fail s o
  | .pushOwn v i => member s v do
    let this ← self
    pushBack fail (.slot (this.first.add i))

/-- A call that no allocation fails in. -/
def call (s : State T) (c : Call T) : Exec (State T) :=
  match step trivial dflt none s c with
  | .ok _ s' => .ok s'
  | .error e _ => .error e

def run (s : State T) (cs : List (Call T)) : Exec (State T) := cs.foldlM (call trivial dflt) s

end

end Checked

/-! ## The same calls on plain lists -/

def listCall (dflt : T) (m : Nat → Option (List T)) : Call T → Option (Nat → Option (List T))
  | .op o => listStep dflt m o
  | .pushOwn v i => do
    let l ← m v
    let x ← l[i]?
    return update m v (some (l ++ [x]))

/-- An own element is pushed only where there is room; the other calls as before. -/
def FitsCall (trivial : Bool) (s : State T) : Call T → Prop
  | .op o => Fits trivial s o
  | .pushOwn v _ => ∀ vec ∈ s.vecs v, vec.full = false

end Wtfsc.Container
