/-
  Wtfsc.LatchFree.QueueCalls — `LockFreeQueue` of src/latch-free/queue.cpp with `push` and
  `pop` side by side, access by access (`Wtfsc.LatchFree.Queue` has one consumer after the
  pushes).

  A call is a number. A step is the allocation of a node, a load or a store of `head` or
  `tail`, an access to a node, or its deletion. An access to no node, a second deletion of
  one, and the load of a `next` that was not written are a `fault`.

  The queue relies on its clients: from its load of `tail` to its store a push has to be
  the only one there, and so has a pop from its load of `head` to its store (`Clear`), as
  they are with one thread that pushes and one that pops.
-/

import Wtfsc.LatchFree.Queue
import Wtfsc.Lib.Linearize

namespace Wtfsc.LockFreeQueue.Calls

open Function
open Wtfsc.Linearize

variable {α : Type}

inductive Op (α : Type) where
  | push (data : α)
  | pop
  deriving DecidableEq, Repr

inductive Ret (α : Type) where
  | unit
  | ptr (v : Option α)
  deriving DecidableEq, Repr

/-- Where a call stands, with its locals. -/
inductive Pc (α : Type) where
  | idle
  | pushNew (data : α)
  | pushLoadTail (data : α) (newNode : Nat)
  | pushSwap (data : α) (newNode oldTail : Nat)
  | pushSetNext (data : α) (newNode oldTail : Nat)
  | pushStoreTail (data : α) (newNode : Nat)
  | popLoadHead
  | popLoadTail (oldHead : Nat)
  | popNext (oldHead : Nat)
  | popStoreHead (oldHead next : Nat)
  | popData (oldHead : Nat)
  | popDelete (oldHead : Nat) (res : α)
  | ret (r : Ret α)
  | returned
  | fault
  deriving DecidableEq, Repr

structure State (α : Type) where
  nodes : Nat → Option (Node α)
  fresh : Nat
  head : Nat
  tail : Nat
  pc : Nat → Pc α

def State.goto (s : State α) (c : Nat) (p : Pc α) : State α := { s with pc := update s.pc c p }

def State.setNode (s : State α) (a : Nat) (nd : Option (Node α)) : State α := { s with nodes := update s.nodes a nd }

def start : Op α → Pc α
  | .push x => .pushNew x
  | .pop => .popLoadHead

/-- From the load of `tail` to its store. -/
def Pc.pushing : Pc α → Bool
  | .pushSwap _ _ _ | .pushSetNext _ _ _ | .pushStoreTail _ _ => true
  | _ => false

/-- From the load of `head` to its store. -/
def Pc.popping : Pc α → Bool
  | .popLoadTail _ | .popNext _ | .popStoreHead _ _ => true
  | _ => false

inductive Act (α : Type) where
  | invoke (c : Nat) (op : Op α)
  | run (c : Nat)

/-- No call loads `tail` within another push's window, or `head` within another pop's. -/
def State.Clear (s : State α) : Act α → Prop
  | .invoke _ _ => True
  | .run c =>
    match s.pc c with
    | .pushLoadTail _ _ => ∀ d, (s.pc d).pushing = false
    | .popLoadHead => ∀ d, (s.pc d).popping = false
    | _ => True

section Run

variable [Inhabited α]

/-- `LockFreeQueue()` -/
def State.init : State α :=
  { nodes := update (fun _ => none) 0 (some .new)
    fresh := 1
    head := 0
    tail := 0
    pc := fun _ => .idle }

/-- The next step of call `c`. -/
def State.run (s : State α) (c : Nat) : Option (State α) :=
  match s.pc c with
  | .pushNew x => some (({ s with fresh := s.fresh + 1 }.setNode s.fresh (some .new)).goto c (.pushLoadTail x s.fresh))
  | .pushLoadTail x n => some (s.goto c (.pushSwap x n s.tail))
  | .pushSwap x n o =>
    match s.nodes o with
    | some nd => some ((s.setNode o (some { nd with data := x })).goto c (.pushSetNext x n o))
    | none => some (s.goto c .fault)
  | .pushSetNext x n o =>
    match s.nodes o with
    | some nd => some ((s.setNode o (some { nd with next := some n })).goto c (.pushStoreTail x n))
    | none => some (s.goto c .fault)
  | .pushStoreTail _ n => some ({ s with tail := n }.goto c (.ret .unit))
  | .popLoadHead => some (s.goto c (.popLoadTail s.head))
  | .popLoadTail a => some (s.goto c (if a = s.tail then .ret (.ptr none) else .popNext a))
  | .popNext a =>
    match s.nodes a with
    | some ⟨_, some n⟩ => some (s.goto c (.popStoreHead a n))
    | _ => some (s.goto c .fault)
  | .popStoreHead a n => some ({ s with head := n }.goto c (.popData a))
  | .popData a =>
    match s.nodes a with
    | some nd => some (s.goto c (.popDelete a nd.data))
    | none => some (s.goto c .fault)
  | .popDelete a x =>
    match s.nodes a with
    | some _ => some ((s.setNode a none).goto c (.ret (.ptr (some x))))
    | none => some (s.goto c .fault)
  | .ret _ => some (s.goto c .returned)
  | .idle | .returned | .fault => none

def State.step (s : State α) : Act α → Option (State α)
  | .invoke c op =>
    match s.pc c with
    | .idle => some (s.goto c (start op))
    | _ => none
  | .run c => s.run c

/-- What a step shows of the history: invocations and answers. -/
def State.events (s : State α) : Act α → List (Event (Op α) (Ret α))
  | .invoke c op => [.inv c op]
  | .run c =>
    match s.pc c with
    | .ret r => [.res c r]
    | _ => []

/-- The runs of a new queue whose clients keep the windows apart. -/
inductive Run : List (Event (Op α) (Ret α)) → State α → Prop
  | init : Run [] .init
  | snoc {h : List (Event (Op α) (Ret α))} {s s' : State α} (a : Act α) :
      Run h s → s.Clear a → s.step a = some s' → Run (h ++ s.events a) s'

end Run

/-! ## What the queue holds -/

def State.next (s : State α) (a : Nat) : Option Nat := (s.nodes a).bind (·.next)

def State.data (s : State α) (a : Nat) : Option α := (s.nodes a).map (·.data)

/-- The node that only this call knows. -/
def Pc.own : Pc α → Option Nat
  | .pushLoadTail _ n | .pushSwap _ n _ | .pushSetNext _ n _ | .pushStoreTail _ n => some n
  | .popData a | .popDelete a _ => some a
  | _ => none

/-- The nodes `l` from `head` on, with the data `q`, and that of `tail`; every other node there is is known to one call. -/
structure State.Holds (s : State α) (l : List Nat) (q : List α) : Prop where
  path : Links.Path s.next (some s.head) l (some s.tail)
  nodup : (l ++ [s.tail]).Nodup
  data : l.map s.data = q.map some
  known : ∀ a, s.nodes a ≠ none → a ∈ l ++ [s.tail] ∨ ∃ c, (s.pc c).own = some a

/-! ## The sequential queue -/

inductive Fifo : List α → Op α → Ret α → List α → Prop
  | push (q : List α) (x : α) : Fifo q (.push x) .unit (q ++ [x])
  | pop (q : List α) (x : α) : Fifo (x :: q) .pop (.ptr (some x)) q
  | empty : Fifo [] .pop (.ptr none) []

end Wtfsc.LockFreeQueue.Calls
