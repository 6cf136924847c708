/-
  Wtfsc.LatchFree.Spsc — the ring buffer of src/latch-free/spsc-20.cpp
  (src/latch-free/spsc-17.cpp is the same with `cap` a template parameter), step by step.

  One producer calls `emplace` (`push` is `emplace`), one consumer calls `pop`, in any
  order and as often as they like. A step is one load or store of `head` or `tail`, the
  construction of an element, which may throw, the move out of one, or its destruction.
  `t` and `h` stay below `cap`, so `t + 1` does not wrap. Constructing over an element,
  or moving out of or destroying what is not there, is a `fault`.

  Three logs record what no field tells afterwards: the values whose `emplace` has stored
  `tail`, the values moved out by `pop`, and the number of pops that have stored `head`.
-/

import Mathlib.Logic.Function.Basic
import Mathlib.Tactic.Common
import Wtfsc.Lib.Ring

namespace Wtfsc.LatchFree

open Function

variable {α : Type}

inductive Slot (α : Type) where
  | raw
  | live (v : α)
  /-- Moved out of, and not destroyed yet. -/
  | moved
  deriving DecidableEq, Repr

def Slot.value : Slot α → Option α
  | .live v => some v
  | _ => none

/-- Where the producer stands, with its locals. -/
inductive Producer (α : Type) where
  | idle
  | loadTail (v : α)
  | loadHead (v : α) (t : Nat)
  | construct (v : α) (t : Nat)
  | storeTail (v : α) (t : Nat)
  | returned (b : Bool)
  | thrown
  | fault
  deriving DecidableEq, Repr

inductive Consumer where
  | idle
  | loadHead
  | loadTail (h : Nat)
  | moveOut (h : Nat)
  | destroy (h : Nat)
  | storeHead (h : Nat)
  | returned (b : Bool)
  | fault
  deriving DecidableEq, Repr

structure Spsc (α : Type) where
  cap : Nat
  data : Nat → Slot α
  head : Nat
  tail : Nat
  producer : Producer α
  consumer : Consumer
  stored : List α
  popped : List α
  released : Nat

/-- `spsc(cap)` -/
def Spsc.new (cap : Nat) : Spsc α :=
  { cap := cap
    data := fun _ => .raw
    head := 0
    tail := 0
    producer := .idle
    consumer := .idle
    stored := []
    popped := []
    released := 0 }

def Spsc.next (s : Spsc α) (i : Nat) : Nat := (i + 1) % s.cap

/-- The next step of the producer. -/
def Spsc.produce (s : Spsc α) : Option (Spsc α) :=
  match s.producer with
  | .loadTail v => some { s with producer := .loadHead v s.tail }
  | .loadHead v t => some { s with producer := if s.next t = s.head then .returned false else .construct v t }
  | .construct v t =>
    match s.data t with
    | .raw => some { s with data := update s.data t (.live v), producer := .storeTail v t }
    | _ => some { s with producer := .fault }
  | .storeTail v t => some { s with tail := s.next t, stored := s.stored ++ [v], producer := .returned true }
  | .idle | .returned _ | .thrown | .fault => none

/-- The next step of the consumer. -/
def Spsc.consume (s : Spsc α) : Option (Spsc α) :=
  match s.consumer with
  | .loadHead => some { s with consumer := .loadTail s.head }
  | .loadTail h => some { s with consumer := if h = s.tail then .returned false else .moveOut h }
  | .moveOut h =>
    match s.data h with
    | .live v => some { s with data := update s.data h .moved, popped := s.popped ++ [v], consumer := .destroy h }
    | _ => some { s with consumer := .fault }
  | .destroy h =>
    match s.data h with
    | .raw => some { s with consumer := .fault }
    | _ => some { s with data := update s.data h .raw, consumer := .storeHead h }
  | .storeHead h => some { s with head := s.next h, released := s.released + 1, consumer := .returned true }
  | .idle | .returned _ | .fault => none

/-- Between two calls. -/
def Producer.ready : Producer α → Bool
  | .idle | .returned _ | .thrown => true
  | _ => false

def Consumer.ready : Consumer → Bool
  | .idle | .returned _ => true
  | _ => false

inductive Act (α : Type) where
  | emplace (v : α)
  | pop
  | produce
  | consume
  /-- The constructor of the element throws. -/
  | throws
  deriving DecidableEq, Repr

def Spsc.step (s : Spsc α) : Act α → Option (Spsc α)
  | .emplace v => if s.producer.ready then some { s with producer := .loadTail v } else none
  | .pop => if s.consumer.ready then some { s with consumer := .loadHead } else none
  | .produce => s.produce
  | .consume => s.consume
  | .throws =>
    match s.producer with
    | .construct _ _ => some { s with producer := .thrown }
    | _ => none

/-- The states a ring of `cap` places can come to. -/
inductive Run (cap : Nat) : Spsc α → Prop
  | init : Run cap (.new cap)
  | step {s s' : Spsc α} (a : Act α) : Run cap s → s.step a = some s' → Run cap s'

/-- The places from `head` to `tail`. -/
def Spsc.window (s : Spsc α) : List Nat := Ring.window s.cap s.head s.tail

/-- What they hold. -/
def Spsc.held (s : Spsc α) : List α := s.window.filterMap fun i => (s.data i).value

/-- A `pop` has moved an element out and not stored `head` yet. -/
def Consumer.midPop : Consumer → Bool
  | .destroy _ | .storeHead _ => true
  | _ => false

/-- The run of a schedule; an action that cannot happen is skipped. -/
def Spsc.exec (s : Spsc α) : List (Act α) → Spsc α
  | [] => s
  | a :: as => ((s.step a).getD s).exec as

theorem exec_run {cap : Nat} {s : Spsc α} (h : Run cap s) (as : List (Act α)) : Run cap (s.exec as) := by
  induction as generalizing s with
  | nil => exact h
  | cons a as ih =>
    refine ih ?_
    cases hs : s.step a with
    | none => exact h
    | some s' => exact h.step a hs

end Wtfsc.LatchFree
