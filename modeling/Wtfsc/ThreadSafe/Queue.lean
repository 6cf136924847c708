/-
  Wtfsc.ThreadSafe.Queue — `ConcurrentQueue` of src/thread-safe/queue.cpp, thread by thread.

  A call is a number; a thread making several calls is several calls one after another.
  A step is one access to `head_`, `tail_`, `Node::v` or `Node::next`, one lock or
  unlock, one evaluation of the wait predicate's comparison, the atomic release and
  block of `cv_.wait`, a wake-up, or one `notify_one`. Moving out of a `unique_ptr` is
  one access: it reads the pointer and leaves null. Nodes are known by addresses never
  used again; a popped node is destroyed when its call ends. Following a null or dangling
  pointer is a `fault`, and so is what would destroy a node with others behind it: the
  code assigns to null `unique_ptr`s only and destroys nodes whose `next` is null.
-/

import Mathlib.Logic.Function.Basic
import Mathlib.Tactic.Common
import Wtfsc.Lib.Linearize

namespace Wtfsc.ThreadSafe

open Function
open Wtfsc.Linearize

variable {α : Type}

structure QNode (α : Type) where
  v : Option α
  next : Option Nat

inductive PopKind where
  | tryPop
  | waitAndPop
  deriving DecidableEq, Repr

inductive QOp (α : Type) where
  | push (x : α)
  | pop (k : PopKind)
  deriving DecidableEq, Repr

/-- A push answers nothing, a pop a `shared_ptr`. -/
inductive QRet (α : Type) where
  | unit
  | ptr (v : Option α)
  deriving DecidableEq, Repr

/-- Where a call stands, with its locals. -/
inductive Pc (α : Type) where
  | idle
  | pushNew (x : α)
  | pushLock (x : α) (newNode : Nat)
  | pushReadTailV (x : α) (newNode : Nat)
  | pushSetV (x : α) (newNode tail : Nat)
  | pushReadTailNext (x : α) (newNode : Nat)
  | pushSetNext (x : α) (newNode tail : Nat)
  | pushSetTail (x : α) (newNode : Nat)
  | pushUnlock
  | pushNotify
  | headLock (k : PopKind)
  | tailLock (k : PopKind)
  | tailRead (k : PopKind)
  | tailUnlock (k : PopKind) (tail : Nat)
  | compare (k : PopKind) (tail : Nat)
  /-- `try_pop` found nothing. -/
  | unlockNull
  /-- The wait predicate was false: about to release the mutex and block. -/
  | wait
  | blocked
  | woken
  | takeHead (k : PopKind)
  | takeNext (k : PopKind) (headNode : Option Nat)
  | setHead (k : PopKind) (headNode next : Option Nat)
  | headUnlock (k : PopKind) (headNode : Option Nat)
  | readV (k : PopKind) (headNode : Option Nat)
  | destroy (k : PopKind) (headNode : Option Nat) (v : Option α)
  | ret (r : QRet α)
  | returned
  | fault

structure QState (α : Type) where
  nodes : Nat → Option (QNode α)
  fresh : Nat
  head : Option Nat
  tail : Nat
  headMutex : Option Nat
  tailMutex : Option Nat
  /-- The calls blocked in `cv_.wait`. -/
  cv : List Nat
  pc : Nat → Pc α

/-- `ConcurrentQueue()` -/
def QState.init : QState α :=
  { nodes := update (fun _ => none) 0 (some ⟨none, none⟩)
    fresh := 1
    head := some 0
    tail := 0
    headMutex := none
    tailMutex := none
    cv := []
    pc := fun _ => .idle }

def QState.goto (s : QState α) (c : Nat) (p : Pc α) : QState α := { s with pc := update s.pc c p }

/-- Change the node at `a`. -/
def QState.setNode (s : QState α) (a : Nat) (nd : Option (QNode α)) : QState α := { s with nodes := update s.nodes a nd }

/-- Where a call starts. -/
def start : QOp α → Pc α
  | .push x => .pushNew x
  | .pop k => .headLock k

/-- The next step of call `c`; a lock step has to wait for a free mutex. -/
def QState.run (s : QState α) (c : Nat) : Option (QState α) :=
  match s.pc c with
  | .pushNew x =>
    some (({ s with fresh := s.fresh + 1 }.setNode s.fresh (some ⟨none, none⟩)).goto c (.pushLock x s.fresh))
  | .pushLock x n =>
    if s.tailMutex = none then some ({ s with tailMutex := some c }.goto c (.pushReadTailV x n)) else none
  | .pushReadTailV x n => some (s.goto c (.pushSetV x n s.tail))
  | .pushSetV x n t =>
    match s.nodes t with
    | some nd => some ((s.setNode t (some { nd with v := some x })).goto c (.pushReadTailNext x n))
    | none => some (s.goto c .fault)
  | .pushReadTailNext x n => some (s.goto c (.pushSetNext x n s.tail))
  | .pushSetNext x n t =>
    match s.nodes t with
    | some ⟨v, none⟩ => some ((s.setNode t (some ⟨v, some n⟩)).goto c (.pushSetTail x n))
    | _ => some (s.goto c .fault)
  | .pushSetTail _ n => some ({ s with tail := n }.goto c .pushUnlock)
  | .pushUnlock => some ({ s with tailMutex := none }.goto c .pushNotify)
  | .headLock k => if s.headMutex = none then some ({ s with headMutex := some c }.goto c (.tailLock k)) else none
  | .tailLock k => if s.tailMutex = none then some ({ s with tailMutex := some c }.goto c (.tailRead k)) else none
  | .tailRead k => some (s.goto c (.tailUnlock k s.tail))
  | .tailUnlock k t => some ({ s with tailMutex := none }.goto c (.compare k t))
  | .compare k t =>
    if s.head = some t then
      match k with
      | .tryPop => some (s.goto c .unlockNull)
      | .waitAndPop => some (s.goto c .wait)
    else some (s.goto c (.takeHead k))
  | .unlockNull => some ({ s with headMutex := none }.goto c (.ret (.ptr none)))
  | .wait => some ({ s with headMutex := none, cv := c :: s.cv }.goto c .blocked)
  | .woken => if s.headMutex = none then some ({ s with headMutex := some c }.goto c (.tailLock .waitAndPop)) else none
  | .takeHead k => some ({ s with head := none }.goto c (.takeNext k s.head))
  | .takeNext k h =>
    match h.bind s.nodes, h with
    | some nd, some a => some ((s.setNode a (some { nd with next := none })).goto c (.setHead k h nd.next))
    | _, _ => some (s.goto c .fault)
  | .setHead k h n =>
    if s.head = none then some ({ s with head := n }.goto c (.headUnlock k h)) else some (s.goto c .fault)
  | .headUnlock k h => some ({ s with headMutex := none }.goto c (.readV k h))
  | .readV k h =>
    match h.bind s.nodes with
    | some nd => some (s.goto c (.destroy k h nd.v))
    | none => some (s.goto c .fault)
  | .destroy _ h v =>
    match h, h.bind s.nodes with
    | some a, some ⟨_, none⟩ => some ((s.setNode a none).goto c (.ret (.ptr v)))
    | none, _ => some (s.goto c (.ret (.ptr v)))
    | _, _ => some (s.goto c .fault)
  | .ret _ => some (s.goto c .returned)
  | .idle | .pushNotify | .blocked | .returned | .fault => none

/-- Wake the blocked call `w`: it has to take the mutex again. -/
def QState.wake (s : QState α) (w : Nat) : QState α := { s with cv := s.cv.erase w }.goto w .woken

inductive Act (α : Type) where
  | invoke (c : Nat) (op : QOp α)
  | run (c : Nat)
  /-- `cv_.notify_one()` wakes `w`, or nobody when nobody is blocked. -/
  | notify (c : Nat) (w : Option Nat)
  | spurious (w : Nat)

def QState.step (s : QState α) : Act α → Option (QState α)
  | .invoke c op =>
    match s.pc c with
    | .idle => some (s.goto c (start op))
    | _ => none
  | .run c => s.run c
  | .notify c w =>
    match s.pc c, w with
    | .pushNotify, some w => if w ∈ s.cv then some ((s.wake w).goto c (.ret .unit)) else none
    | .pushNotify, none => if s.cv = [] then some (s.goto c (.ret .unit)) else none
    | _, _ => none
  | .spurious w => if w ∈ s.cv then some (s.wake w) else none

/-- What a step shows of the history: invocations and answers. -/
def QState.events (s : QState α) : Act α → List (Event (QOp α) (QRet α))
  | .invoke c op => [.inv c op]
  | .run c =>
    match s.pc c with
    | .ret r => [.res c r]
    | _ => []
  | _ => []

/-- From one state on to another, with what happened in between. -/
inductive Steps : QState α → List (Event (QOp α) (QRet α)) → QState α → Prop
  | refl (s : QState α) : Steps s [] s
  | snoc {s₀ s s' : QState α} {h : List (Event (QOp α) (QRet α))} (a : Act α) :
      Steps s₀ h s → s.step a = some s' → Steps s₀ (h ++ s.events a) s'

/-- The runs of a fresh queue. -/
abbrev Run (h : List (Event (QOp α) (QRet α))) (s : QState α) : Prop := Steps .init h s

theorem Steps.trans {s₀ s s' : QState α} {h h' : List (Event (QOp α) (QRet α))} (hs : Steps s₀ h s)
    (hs' : Steps s h' s') :
    Steps s₀ (h ++ h') s' := by
  induction hs' with
  | refl => rw [List.append_nil]; exact hs
  | snoc a _ ha ih => rw [← List.append_assoc]; exact ih.snoc a ha

/-- The run of a schedule; an action that cannot happen is skipped. -/
def QState.exec (s : QState α) : List (Act α) → List (Event (QOp α) (QRet α)) × QState α
  | [] => ([], s)
  | a :: as =>
    match s.step a with
    | some s' => (s.events a ++ (s'.exec as).1, (s'.exec as).2)
    | none => s.exec as

theorem exec_steps (s : QState α) (as : List (Act α)) : Steps s (s.exec as).1 (s.exec as).2 := by
  induction as generalizing s with
  | nil => exact .refl s
  | cons a as ih =>
    unfold QState.exec
    split
    · next s' hs =>
      have h₁ : Steps s ([] ++ s.events a) s' := (Steps.refl s).snoc a hs
      rw [List.nil_append] at h₁
      exact h₁.trans (ih s')
    · exact ih s

/-! ## The sequential queue -/

inductive Fifo : List α → QOp α → QRet α → List α → Prop
  | push (q : List α) (x : α) : Fifo q (.push x) .unit (q ++ [x])
  | pop (q : List α) (x : α) (k : PopKind) : Fifo (x :: q) (.pop k) (.ptr (some x)) q
  | empty : Fifo [] (.pop .tryPop) (.ptr none) []

end Wtfsc.ThreadSafe
