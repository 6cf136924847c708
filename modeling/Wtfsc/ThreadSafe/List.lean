/-
  Wtfsc.ThreadSafe.List — `ConcurrentList` of src/thread-safe/list.cpp, thread by thread.

  Call `c` carries out `calls c`; a thread making several calls is several calls one
  after another. A step is one lock or unlock of a node's mutex, one access to a node's
  `next`, one call of a callback (which reads the node's data), the allocation or the
  destruction of a node. Moving out of `next` is one access: it reads the pointer and
  leaves null. A node is known by the call that allocated it; the fields of nodes are
  maps from nodes, and touching a node that is not there is a `fault`.

  Three logs record what no field of the list tells afterwards: the order in which the
  calls locked `head_.m`, what the callbacks were called with, and which nodes the
  `remove_if` calls destroyed.
-/

import Mathlib.Logic.Function.Basic
import Mathlib.Tactic.Common

namespace Wtfsc.ConcurrentList

open Function

variable {α : Type}

inductive Addr where
  | head
  | node (t : Nat)
  deriving DecidableEq, Repr

/-- An element: its node and its value. -/
abbrev Elem (α : Type) := Addr × α

/-- The calls that walk down the list. -/
inductive Walk (α : Type) where
  | forEach
  | findFirstIf (f : α → Bool)
  | removeIf (f : α → Bool)

inductive Op (α : Type) where
  | pushFront (x : α)
  | walk (k : Walk α)

/-- `find_first_if` answers a `shared_ptr`, the others nothing. -/
inductive Ret (α : Type) where
  | unit
  | ptr (v : Option α)
  deriving DecidableEq, Repr

/-! ## One call after another -/

def Walk.effect : Walk α → List (Elem α) → List (Elem α)
  | .removeIf f, l => l.filter fun e => !f e.2
  | _, l => l

/-- The elements up to the first that satisfies `f`. -/
def upTo (f : α → Bool) : List (Elem α) → List (Elem α)
  | [] => []
  | e :: l => if f e.2 then [e] else e :: upTo f l

/-- What the callback is called with. -/
def Walk.visits : Walk α → List (Elem α) → List (Elem α)
  | .findFirstIf f, l => upTo f l
  | _, l => l

def Walk.removes : Walk α → List (Elem α) → List Addr
  | .removeIf f, l => (l.filter fun e => f e.2).map Prod.fst
  | _, _ => []

def Walk.answer : Walk α → List (Elem α) → Ret α
  | .findFirstIf f, l => .ptr ((l.find? fun e => f e.2).map Prod.snd)
  | _, _ => .unit

def Op.effect (c : Nat) : Op α → List (Elem α) → List (Elem α)
  | .pushFront x, l => (.node c, x) :: l
  | .walk k, l => k.effect l

def Op.visits : Op α → List (Elem α) → List (Elem α)
  | .pushFront _, _ => []
  | .walk k, l => k.visits l

def Op.removes : Op α → List (Elem α) → List Addr
  | .pushFront _, _ => []
  | .walk k, l => k.removes l

def Op.answer : Op α → List (Elem α) → Ret α
  | .pushFront _, _ => .unit
  | .walk k, l => k.answer l

/-- The list after the calls `order`, one after another. -/
def serial (calls : Nat → Op α) (order : List Nat) : List (Elem α) := order.foldl (fun l c => (calls c).effect c l) []

/-! ## The calls, step by step -/

/-- Where a call stands, with its locals. -/
inductive Pc (α : Type) where
  | idle
  | pushNew (x : α)
  | pushLock (x : α) (t : Addr)
  | pushTakeNext (x : α) (t : Addr)
  | pushSetNext (x : α) (t : Addr) (next : Option Addr)
  | pushSetHead (x : α) (t : Addr)
  | pushUnlock
  | lockHead (k : Walk α)
  | readNext (k : Walk α) (cur : Addr)
  | lockNext (k : Walk α) (cur next : Addr)
  /-- `head_lock.unlock()` -/
  | unlockCur (k : Walk α) (cur next : Addr)
  /-- `f(*next->data)` in `for_each` and `find_first_if`. -/
  | call (k : Walk α) (next : Addr)
  /-- `f(*next->data)` in `remove_if`. -/
  | callRemove (f : α → Bool) (cur next : Addr)
  | takeCur (f : α → Bool) (cur next : Addr)
  | takeNext (f : α → Bool) (cur next : Addr) (oldNext : Option Addr)
  | setCur (f : α → Bool) (cur next : Addr) (oldNext p : Option Addr)
  | unlockNext (f : α → Bool) (cur next : Addr) (oldNext : Option Addr)
  | destroy (f : α → Bool) (cur : Addr) (oldNext : Option Addr)
  /-- `return next->data` -/
  | returnData (f : α → Bool) (next : Addr)
  | unlockFound (f : α → Bool) (next : Addr) (v : Option α)
  /-- The loop has ended: `head_lock` is destroyed. -/
  | unlockLast (k : Walk α) (cur : Addr)
  | returned (r : Ret α)
  | fault

structure LState (α : Type) where
  live : Addr → Bool
  m : Addr → Option Nat
  data : Addr → Option α
  next : Addr → Option Addr
  pc : Nat → Pc α
  order : List Nat
  visits : List (Nat × Elem α)
  removals : List (Nat × Addr)

/-- `ConcurrentList()` -/
def LState.init : LState α :=
  { live := fun a => a == .head
    m := fun _ => none
    data := fun _ => none
    next := fun _ => none
    pc := fun _ => .idle
    order := []
    visits := []
    removals := [] }

def LState.goto (s : LState α) (c : Nat) (p : Pc α) : LState α := { s with pc := update s.pc c p }

/-- `make_unique<Node>(x)` -/
def LState.alloc (s : LState α) (a : Addr) (x : α) : LState α :=
  { s with
    live := update s.live a true
    m := update s.m a none
    data := update s.data a (some x)
    next := update s.next a none }

/-- Lock the mutex of `a`, once it is free. -/
def LState.lock (s : LState α) (c : Nat) (a : Addr) (p : Pc α) : Option (LState α) :=
  if s.live a then
    if s.m a = none then some ({ s with m := update s.m a (some c) }.goto c p) else none
  else some (s.goto c .fault)

def LState.lockHead (s : LState α) (c : Nat) (p : Pc α) : Option (LState α) :=
  if s.m .head = none then some ({ s with m := update s.m .head (some c), order := s.order ++ [c] }.goto c p) else none

def LState.unlock (s : LState α) (c : Nat) (a : Addr) (p : Pc α) : LState α :=
  if s.live a then { s with m := update s.m a none }.goto c p else s.goto c .fault

/-- Move `q` into the `next` of `a`. A node that it held before would be destroyed with
    everything behind it; the code moves into null pointers only. -/
def LState.setNext (s : LState α) (c : Nat) (a : Addr) (q : Option Addr) (p : Pc α) : LState α :=
  if s.live a = true ∧ s.next a = none then { s with next := update s.next a q }.goto c p else s.goto c .fault

/-- Move out of the `next` of `a`. -/
def LState.takeNext (s : LState α) (c : Nat) (a : Addr) (p : Option Addr → Pc α) : LState α :=
  if s.live a then { s with next := update s.next a none }.goto c (p (s.next a)) else s.goto c .fault

/-- The node `a` goes with the `unique_ptr` that holds it. -/
def LState.delete (s : LState α) (c : Nat) (a : Addr) (p : Pc α) : LState α :=
  if s.live a = true ∧ s.m a = none ∧ s.next a = none then
    { s with live := update s.live a false, removals := s.removals ++ [(c, a)] }.goto c p
  else s.goto c .fault

/-- Call the callback on the data of `a`. -/
def LState.callback (s : LState α) (c : Nat) (a : Addr) (p : α → Pc α) : LState α :=
  match s.live a, s.data a with
  | true, some v => { s with visits := s.visits ++ [(c, a, v)] }.goto c (p v)
  | _, _ => s.goto c .fault

section

variable {s : LState α} {c : Nat} {a : Addr} {p : Pc α}

theorem unlock_live (hl : s.live a = true) : s.unlock c a p = { s with m := update s.m a none }.goto c p := if_pos hl

theorem setNext_live {q : Option Addr} (hl : s.live a = true) (hn : s.next a = none) :
    s.setNext c a q p = { s with next := update s.next a q }.goto c p := if_pos ⟨hl, hn⟩

theorem takeNext_live {f : Option Addr → Pc α} (hl : s.live a = true) :
    s.takeNext c a f = { s with next := update s.next a none }.goto c (f (s.next a)) := if_pos hl

theorem delete_live (hl : s.live a = true) (hm : s.m a = none) (hn : s.next a = none) :
    s.delete c a p = { s with live := update s.live a false, removals := s.removals ++ [(c, a)] }.goto c p :=
  if_pos ⟨hl, hm, hn⟩

theorem callback_live {f : α → Pc α} {v : α} (hl : s.live a = true) (hd : s.data a = some v) :
    s.callback c a f = { s with visits := s.visits ++ [(c, a, v)] }.goto c (f v) := by
  unfold LState.callback
  rw [hl, hd]

end

def start : Op α → Pc α
  | .pushFront x => .pushNew x
  | .walk k => .lockHead k

/-- Behind `unlockCur`: `remove_if` has called its callback already. -/
def Walk.unlocked (next : Addr) : Walk α → Pc α
  | .removeIf f => .readNext (.removeIf f) next
  | k => .call k next

/-- With the next node locked `remove_if` keeps the lock before it. -/
def Walk.locked (cur next : Addr) : Walk α → Pc α
  | .removeIf f => .callRemove f cur next
  | k => .unlockCur k cur next

/-- Behind the callback on `v` at `next`. -/
def Walk.called (next : Addr) (v : α) : Walk α → Pc α
  | .findFirstIf f => if f v then .returnData f next else .readNext (.findFirstIf f) next
  | k => .readNext k next

/-- What a walk answers that has reached the end. -/
def Walk.ended : Walk α → Ret α
  | .findFirstIf _ => .ptr none
  | _ => .unit

/-- The next step of call `c`; a lock step has to wait for a free mutex. -/
def LState.run (s : LState α) (c : Nat) : Option (LState α) :=
  match s.pc c with
  | .pushNew x => some ((s.alloc (.node c) x).goto c (.pushLock x (.node c)))
  | .pushLock x t => s.lockHead c (.pushTakeNext x t)
  | .pushTakeNext x t => some (s.takeNext c .head (.pushSetNext x t))
  | .pushSetNext x t p => some (s.setNext c t p (.pushSetHead x t))
  | .pushSetHead _ t => some (s.setNext c .head (some t) .pushUnlock)
  | .pushUnlock => some (s.unlock c .head (.returned .unit))
  | .lockHead k => s.lockHead c (.readNext k .head)
  | .readNext k cur =>
    if s.live cur then
      match s.next cur with
      | some n => some (s.goto c (.lockNext k cur n))
      | none => some (s.goto c (.unlockLast k cur))
    else some (s.goto c .fault)
  | .lockNext k cur n => s.lock c n (k.locked cur n)
  | .unlockCur k cur n => some (s.unlock c cur (k.unlocked n))
  | .call k n => some (s.callback c n fun v => k.called n v)
  | .callRemove f cur n =>
    some (s.callback c n fun v => if f v then .takeCur f cur n else .unlockCur (.removeIf f) cur n)
  | .takeCur f cur n => some (s.takeNext c cur (.takeNext f cur n))
  | .takeNext f cur n old => some (s.takeNext c n (.setCur f cur n old))
  | .setCur f cur n old p => some (s.setNext c cur p (.unlockNext f cur n old))
  | .unlockNext f cur n old => some (s.unlock c n (.destroy f cur old))
  | .destroy f cur old =>
    match old with
    | some a => some (s.delete c a (.readNext (.removeIf f) cur))
    | none => some (s.goto c (.readNext (.removeIf f) cur))
  | .returnData f n => if s.live n then some (s.goto c (.unlockFound f n (s.data n))) else some (s.goto c .fault)
  | .unlockFound _ n v => some (s.unlock c n (.returned (.ptr v)))
  | .unlockLast k cur => some (s.unlock c cur (.returned k.ended))
  | .idle | .returned _ | .fault => none

inductive Act where
  | invoke (c : Nat)
  | run (c : Nat)
  deriving DecidableEq, Repr

def LState.step (calls : Nat → Op α) (s : LState α) : Act → Option (LState α)
  | .invoke c =>
    match s.pc c with
    | .idle => some (s.goto c (start (calls c)))
    | _ => none
  | .run c => s.run c

/-- The states a fresh list can come to. -/
inductive Run (calls : Nat → Op α) : LState α → Prop
  | init : Run calls .init
  | step {s s' : LState α} (a : Act) : Run calls s → s.step calls a = some s' → Run calls s'

/-- The list as `c` finds it when the calls run one after another. -/
def LState.before (calls : Nat → Op α) (s : LState α) (c : Nat) : List (Elem α) :=
  serial calls (s.order.takeWhile (· ≠ c))

/-- What `c`'s callback was called with. -/
def LState.seen (s : LState α) (c : Nat) : List (Elem α) := (s.visits.filter fun v => v.1 == c).map Prod.snd

/-- The nodes `c` has destroyed. -/
def LState.removed (s : LState α) (c : Nat) : List Addr := (s.removals.filter fun v => v.1 == c).map Prod.snd

/-- Following `next` from `p` passes through the elements `l` and ends at null. -/
def LState.Content (s : LState α) : Option Addr → List (Elem α) → Prop
  | p, [] => p = none
  | p, e :: l => p = some e.1 ∧ s.live e.1 = true ∧ s.data e.1 = some e.2 ∧ s.Content (s.next e.1) l

/-- The run of a schedule; a step that cannot happen is skipped. -/
def LState.exec (calls : Nat → Op α) (s : LState α) : List Act → LState α
  | [] => s
  | a :: as => (match s.step calls a with | some s' => s' | none => s).exec calls as

theorem exec_run {calls : Nat → Op α} {s : LState α} (h : Run calls s) (as : List Act) : Run calls (s.exec calls as) := by
  induction as generalizing s with
  | nil => exact h
  | cons a as ih =>
    refine ih ?_
    split
    · next s' hs => exact h.step a hs
    · exact h

end Wtfsc.ConcurrentList
