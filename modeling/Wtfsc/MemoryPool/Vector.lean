/-
  Wtfsc.MemoryPool.Vector — `Vector<T>` of src/memory_pool/Vector.h.

  The storage is `Wtfsc.Lib.Slots`: `allocate(n)` provides `n` slots and never fails. A
  vector is its three pointers. The loops count with an `int`, whose increment past
  2^31-1 is undefined behaviour, against a `size_t`. The initializer list is assigned to
  slots that hold no element yet, which only some element types allow (`trivial`), `int`
  among them; `dflt` is `T()`.

  Any number of vectors are in scope, known by numbers; the calls name them, so `this ==
  &other` is that the numbers are equal. `lists` is what the same calls do to plain lists.
-/

import Wtfsc.Lib.Slots

namespace Wtfsc.Container

open Function
open Wtfsc.Cpp Wtfsc.Slots

variable {T : Type}

structure Vector where
  first : Ptr
  last : Ptr
  end_ : Ptr
  deriving DecidableEq, Repr

def Vector.null : Vector := ⟨.null, .null, .null⟩

def Vector.full (v : Vector) : Bool := v.last == v.end_

def Vector.isEmpty (v : Vector) : Bool := v.first == v.last

def Vector.size (v : Vector) : Exec Nat := v.last.sub v.first

def Vector.capacity (v : Vector) : Exec Nat := v.end_.sub v.first

/-- `for (int i = 0; i < size; ++i) construct(dst + i, val)`, with `left` rounds to go at `i`. -/
def constructLoop (val : Heap T → Nat → Exec T) (dst : Ptr) : Nat → Nat → Heap T → Exec (Heap T)
  | 0, _, h => .ok h
  | left + 1, i, h => do
    let h ← construct h (dst.add i) (← val h i)
    constructLoop val dst left (← inc i) h

/-- `for (const auto &v : init) first_[i++] = v` -/
def assignLoop (trivial : Bool) (dst : Ptr) : List T → Nat → Heap T → Exec (Heap T)
  | [], _, h => .ok h
  | x :: init, i, h => do
    let i' ← inc i
    assignLoop trivial dst init i' (← assign trivial h (dst.add i) x)

def destroyLoop : Nat → Ptr → Heap T → Exec (Heap T)
  | 0, _, h => .ok h
  | left + 1, p, h => do destroyLoop left (p.add 1) (← destroy h p)

/-- `for (T* p = first_; p != last_; ++p) destroy(p)` -/
def destroyAll (h : Heap T) (v : Vector) : Exec (Heap T) := do destroyLoop (← v.size) v.first h

/-! ## Constructors -/

/-- `Vector()` -/
def new (h : Heap T) : Heap T × Vector :=
  let (h, first) := allocate h 1
  (h, ⟨first, first, first.add 1⟩)

/-- `Vector(size_t size)` -/
def newSized (dflt : T) (h : Heap T) (size : Nat) : Exec (Heap T × Vector) := do
  let (h, first) := allocate h (shl1 size)
  let h ← constructLoop (fun _ _ => .ok dflt) first size 0 h
  return (h, ⟨first, first.add size, first.add (shl1 size)⟩)

/-- `Vector(const Vector<T>& other)` -/
def newCopy (h : Heap T) (other : Vector) : Exec (Heap T × Vector) := do
  let size ← other.capacity
  let (h, first) := allocate h size
  let len ← other.size
  let h ← constructLoop (fun h i => load h (other.first.add i)) first len 0 h
  return (h, ⟨first, first.add len, first.add size⟩)

/-- `Vector(Vector<T>&& other)`: the new vector and what is left of `other`. -/
def newMove (other : Vector) : Vector × Vector := (other, .null)

/-- `Vector(std::initializer_list<T> init)` -/
def newInit (trivial : Bool) (h : Heap T) (init : List T) : Exec (Heap T × Vector) := do
  let size := init.length
  let (h, first) := allocate h (shl1 size)
  let h ← assignLoop trivial first init 0 h
  return (h, ⟨first, first.add size, first.add (shl1 size)⟩)

/-- `~Vector()` -/
def destruct (h : Heap T) (v : Vector) : Exec (Heap T) := do deallocate (← destroyAll h v) v.first

/-! ## Assignment -/

/-- `operator=(const Vector<T>& other)` where `other` is another vector. -/
def assignCopy (h : Heap T) (v other : Vector) : Exec (Heap T × Vector) := do
  let h ← destroyAll h v
  let h ← deallocate h v.first
  newCopy h other

/-- `operator=(Vector<T>&& other)` where `other` is another vector: the storage of `v` is not given back. -/
def assignMove (h : Heap T) (v other : Vector) : Exec (Heap T × Vector × Vector) := do
  let h ← destroyAll h v
  return (h, newMove other)

/-! ## Operations -/

def reserve (h : Heap T) (v : Vector) (n : Nat) : Exec (Heap T × Vector) := do
  if n ≤ (← v.capacity) then return (h, v)
  let len ← v.size
  let (h, ptmp) := allocate h n
  let h ← constructLoop (fun h i => load h (v.first.add i)) ptmp len 0 h
  let h ← destroyAll h v
  let h ← deallocate h v.first
  return (h, ⟨ptmp, ptmp.add len, ptmp.add n⟩)

def expand (h : Heap T) (v : Vector) : Exec (Heap T × Vector) := do
  let size ← v.capacity
  let (h, ptmp) := allocate h (shl1 size)
  let h ← constructLoop (fun h i => load h (v.first.add i)) ptmp size 0 h
  let h ← destroyAll h v
  let h ← deallocate h v.first
  return (h, ⟨ptmp, ptmp.add size, ptmp.add (shl1 size)⟩)

def pushBack (h : Heap T) (v : Vector) (val : T) : Exec (Heap T × Vector) := do
  let (h, v) ← if v.full then expand h v else .ok (h, v)
  let h ← construct h v.last val
  return (h, { v with last := v.last.add 1 })

def popBack (h : Heap T) (v : Vector) : Exec (Heap T × Vector) := do
  if v.isEmpty then return (h, v)
  let last : Ptr := { v.last with off := v.last.off - 1 }
  let h ← destroy h last
  return (h, { v with last := last })

def clear (h : Heap T) (v : Vector) : Exec (Heap T × Vector) := do
  let h ← destroyAll h v
  return (h, { v with last := v.first })

/-- `at(0)`, `at(1)` and so on up to `size()`. -/
def contents (h : Heap T) (v : Vector) : Exec (List T) := do
  (List.range (← v.size)).mapM fun i => load h (v.first.add i)

/-! ## A program with vectors -/

structure State (T : Type) where
  heap : Heap T
  vecs : Nat → Option Vector

def State.init : State T := ⟨.empty, fun _ => none⟩

inductive Op (T : Type) where
  | new (v : Nat)
  | newSized (v size : Nat)
  | newInit (v : Nat) (init : List T)
  | newCopy (v other : Nat)
  | newMove (v other : Nat)
  | destruct (v : Nat)
  | assignCopy (v other : Nat)
  | assignMove (v other : Nat)
  | reserve (v n : Nat)
  | pushBack (v : Nat) (val : T)
  | popBack (v : Nat)
  | clear (v : Nat)

def State.set (s : State T) (v : Nat) (hv : Heap T × Vector) : State T := ⟨hv.1, update s.vecs v (some hv.2)⟩

section
variable (trivial : Bool) (dflt : T)

def step (s : State T) : Op T → Exec (State T)
  | .new v => .ok (s.set v (new s.heap))
  | .newSized v size => do return s.set v (← newSized dflt s.heap size)
  | .newInit v init => do return s.set v (← newInit trivial s.heap init)
  | .newCopy v other => do return s.set v (← newCopy s.heap (← deref (s.vecs other)))
  | .newMove v other => do
    let (vec, rest) := newMove (← deref (s.vecs other))
    return { s with vecs := update (update s.vecs other (some rest)) v (some vec) }
  | .destruct v => do
    let heap ← destruct s.heap (← deref (s.vecs v))
    return ⟨heap, update s.vecs v none⟩
  | .assignCopy v other => do
    if v = other then return s
    return s.set v (← assignCopy s.heap (← deref (s.vecs v)) (← deref (s.vecs other)))
  | .assignMove v other => do
    if v = other then return s
    let (heap, vec, rest) ← assignMove s.heap (← deref (s.vecs v)) (← deref (s.vecs other))
    return ⟨heap, update (update s.vecs other (some rest)) v (some vec)⟩
  | .reserve v n => do return s.set v (← reserve s.heap (← deref (s.vecs v)) n)
  | .pushBack v val => do return s.set v (← pushBack s.heap (← deref (s.vecs v)) val)
  | .popBack v => do return s.set v (← popBack s.heap (← deref (s.vecs v)))
  | .clear v => do return s.set v (← clear s.heap (← deref (s.vecs v)))

def run (s : State T) (ops : List (Op T)) : Exec (State T) := ops.foldlM (step trivial dflt) s

/-! ## The same calls on plain lists -/

/-- A variable comes into scope. -/
def declare (m : Nat → Option (List T)) (v : Nat) (l : List T) : Option (Nat → Option (List T)) :=
  match m v with
  | none => some (update m v (some l))
  | some _ => none

/-- `none` where a call names no vector in scope, or declares one that is. -/
def listStep (m : Nat → Option (List T)) : Op T → Option (Nat → Option (List T))
  | .new v => declare m v []
  | .newSized v size => declare m v (List.replicate size dflt)
  | .newInit v init => declare m v init
  | .newCopy v other => do declare m v (← m other)
  | .newMove v other => do
    let l ← m other
    declare (update m other (some [])) v l
  | .destruct v => do
    let _ ← m v
    return update m v none
  | .assignCopy v other => do
    let _ ← m v
    return update m v (some (← m other))
  | .assignMove v other => do
    let _ ← m v
    let l ← m other
    return update (update m other (some [])) v (some l)
  | .reserve v _ => do
    let _ ← m v
    return m
  | .pushBack v val => do return update m v (some ((← m v) ++ [val]))
  | .popBack v => do return update m v (some (← m v).dropLast)
  | .clear v => do
    let _ ← m v
    return update m v (some [])

def lists (m : Nat → Option (List T)) (ops : List (Op T)) : Option (Nat → Option (List T)) :=
  ops.foldlM (listStep dflt) m

/-! ## The law and its condition -/

/-- The vectors of `s` are the lists of `m`: `size()` is at most `capacity()`, and that is what the allocator
    has provided. -/
def Agrees (s : State T) (m : Nat → Option (List T)) : Prop :=
  ∀ v, match s.vecs v, m v with
    | some vec, some l => ∃ cap, vec.size = .ok l.length ∧ vec.capacity = .ok cap ∧ l.length ≤ cap ∧
        contents s.heap vec = .ok l ∧ (cap = 0 ∨ ∃ blk, (vec.first.block.bind s.heap.block) = some blk ∧ blk.size = cap)
    | none, none => True
    | _, _ => False

/-- After each call of `ops` the vectors are the lists that the same calls give. -/
def RefinesList (ops : List (Op T)) : Prop :=
  ∀ pre, pre <+: ops → ∃ s m, run trivial dflt .init pre = .ok s ∧ lists dflt (fun _ => none) pre = some m ∧ Agrees s m

/-- An `int` counts so far. -/
def Countable (x : Exec Nat) : Prop := ∃ n, x = .ok n ∧ n < 2 ^ 31

/-- A loop of the call counts no further than an `int` goes, a list is assigned to slots only where they take
    it, and a full vector that is pushed to has a capacity to double. -/
def Fits (s : State T) : Op T → Prop
  | .newSized _ size => size < 2 ^ 31
  | .newInit _ init => init.length < 2 ^ 31 ∧ (init = [] ∨ trivial = true)
  | .newCopy _ other => ∀ vec ∈ s.vecs other, Countable vec.size
  | .assignCopy v other => v = other ∨ ∀ vec ∈ s.vecs other, Countable vec.size
  | .reserve v n => ∀ vec ∈ s.vecs v, (∃ cap, vec.capacity = .ok cap ∧ n ≤ cap) ∨ Countable vec.size
  | .pushBack v _ => ∀ vec ∈ s.vecs v, vec.full = true → vec.capacity ≠ .ok 0 ∧ Countable vec.capacity
  | _ => True

instance (x : Exec Nat) : Decidable (Countable x) :=
  match x with
  | .ok n => decidable_of_iff (n < 2 ^ 31) ⟨fun h => ⟨n, rfl, h⟩, fun ⟨_, hk, h⟩ => Except.ok.inj hk ▸ h⟩
  | .error _ => isFalse fun ⟨_, hk, _⟩ => nomatch hk

instance (x : Exec Nat) (n : Nat) : Decidable (∃ cap, x = .ok cap ∧ n ≤ cap) :=
  match x with
  | .ok cap => decidable_of_iff (n ≤ cap) ⟨fun h => ⟨cap, rfl, h⟩, fun ⟨_, hk, h⟩ => Except.ok.inj hk ▸ h⟩
  | .error _ => isFalse fun ⟨_, hk, _⟩ => nomatch hk

instance [DecidableEq T] (s : State T) : (op : Op T) → Decidable (Fits trivial s op)
  | .newSized _ size => inferInstanceAs (Decidable (size < 2 ^ 31))
  | .newInit _ init => inferInstanceAs (Decidable (init.length < 2 ^ 31 ∧ (init = [] ∨ trivial = true)))
  | .newCopy _ other => inferInstanceAs (Decidable (∀ vec ∈ s.vecs other, Countable vec.size))
  | .assignCopy v other => inferInstanceAs (Decidable (v = other ∨ ∀ vec ∈ s.vecs other, Countable vec.size))
  | .reserve v n =>
    inferInstanceAs (Decidable (∀ vec ∈ s.vecs v, (∃ cap, vec.capacity = .ok cap ∧ n ≤ cap) ∨ Countable vec.size))
  | .pushBack v _ =>
    inferInstanceAs (Decidable (∀ vec ∈ s.vecs v, vec.full = true → vec.capacity ≠ .ok 0 ∧ Countable vec.capacity))
  | .new _ | .newMove _ _ | .destruct _ | .assignMove _ _ | .popBack _ | .clear _ => isTrue True.intro

/-- `p` of the state that `r` ends in, if it ends in one. -/
def After (r : Exec (State T)) (p : State T → Prop) : Prop :=
  match r with
  | .ok s => p s
  | .error _ => True

/-- Every call of a run fits where it is made. -/
def AllFit (s : State T) : List (Op T) → Prop
  | [] => True
  | op :: ops => Fits trivial s op ∧ After (step trivial dflt s op) fun s' => AllFit s' ops

instance (r : Exec (State T)) (p : State T → Prop) [DecidablePred p] : Decidable (After r p) :=
  match r with
  | .ok s => inferInstanceAs (Decidable (p s))
  | .error _ => isTrue True.intro

instance decidableAllFit [DecidableEq T] : (ops : List (Op T)) → DecidablePred (AllFit trivial dflt · ops)
  | [] => fun _ => isTrue True.intro
  | op :: ops => fun s =>
    have := decidableAllFit ops
    inferInstanceAs (Decidable (Fits trivial s op ∧ After (step trivial dflt s op) fun s' => AllFit trivial dflt s' ops))

end

end Wtfsc.Container
