/-
  Wtfsc.LatchFree.SpscOrders — the ring of src/latch-free/spsc-20.cpp (and spsc-17.cpp) with
  the memory orders that its loads and stores have.

  Each side loads its own index relaxed and the other's acquire, and stores its own release.
  An acquire load may read an old store (`Wtfsc.Lib.ReleaseAcquire`); which one is part of
  the action. Constructing, moving out of and destroying an element are accesses to its
  slot, each of them a write; a data race is a `fault`, as is an element constructed over
  another, or moved out of or destroyed where there is none. The ring is handed to the two
  threads after it has been constructed. Where a side stands in its call, and the three
  logs, are those of `Wtfsc.LatchFree.Spsc`.
-/

import Wtfsc.LatchFree.Spsc
import Wtfsc.Lib.ReleaseAcquire

namespace Wtfsc.LatchFree.Orders

open Function
open Wtfsc.ReleaseAcquire

variable {α : Type}

inductive Side where
  | producer
  | consumer
  deriving DecidableEq, Repr

instance : Fintype Side := ⟨{.producer, .consumer}, fun t => by cases t <;> decide⟩

inductive Index where
  | head
  | tail
  deriving DecidableEq, Repr

structure Spsc (α : Type) where
  cap : Nat
  mem : Mem Side Index Nat Nat
  data : Nat → Slot α
  producer : Producer α
  consumer : Consumer
  stored : List α
  popped : List α
  released : Nat

def Spsc.new (cap : Nat) : Spsc α :=
  { cap := cap
    mem := .init fun _ => 0
    data := fun _ => .raw
    producer := .idle
    consumer := .idle
    stored := []
    popped := []
    released := 0 }

def Spsc.next (s : Spsc α) (i : Nat) : Nat := (i + 1) % s.cap

/-- The next step of the producer; a load reads store number `i`. -/
def Spsc.produce (s : Spsc α) (i : Nat) : Option (Spsc α) :=
  match s.producer with
  | .loadTail v => do
    let r ← s.mem.load false .producer .tail i
    some { s with mem := r.2, producer := .loadHead v r.1 }
  | .loadHead v t => do
    let r ← s.mem.load true .producer .head i
    some { s with mem := r.2, producer := if s.next t = r.1 then .returned false else .construct v t }
  | .construct v t =>
    match s.mem.touch .producer t, s.data t with
    | some m, .raw => some { s with mem := m, data := update s.data t (.live v), producer := .storeTail v t }
    | _, _ => some { s with producer := .fault }
  | .storeTail v t =>
    some { s with
      mem := s.mem.store true .producer .tail (s.next t)
      stored := s.stored ++ [v]
      producer := .returned true }
  | .idle | .returned _ | .thrown | .fault => none

def Spsc.consume (s : Spsc α) (i : Nat) : Option (Spsc α) :=
  match s.consumer with
  | .loadHead => do
    let r ← s.mem.load false .consumer .head i
    some { s with mem := r.2, consumer := .loadTail r.1 }
  | .loadTail h => do
    let r ← s.mem.load true .consumer .tail i
    some { s with mem := r.2, consumer := if h = r.1 then .returned false else .moveOut h }
  | .moveOut h =>
    match s.mem.touch .consumer h, s.data h with
    | some m, .live v =>
      some { s with mem := m, data := update s.data h .moved, popped := s.popped ++ [v], consumer := .destroy h }
    | _, _ => some { s with consumer := .fault }
  | .destroy h =>
    match s.mem.touch .consumer h, s.data h with
    | none, _ | _, .raw => some { s with consumer := .fault }
    | some m, _ => some { s with mem := m, data := update s.data h .raw, consumer := .storeHead h }
  | .storeHead h =>
    some { s with
      mem := s.mem.store true .consumer .head (s.next h)
      released := s.released + 1
      consumer := .returned true }
  | .idle | .returned _ | .fault => none

inductive Act (α : Type) where
  | emplace (v : α)
  | pop
  | produce (i : Nat)
  | consume (i : Nat)
  /-- The constructor of the element throws, having written to the slot. -/
  | throws
  deriving DecidableEq, Repr

def Spsc.step (s : Spsc α) : Act α → Option (Spsc α)
  | .emplace v => if s.producer.ready then some { s with producer := .loadTail v } else none
  | .pop => if s.consumer.ready then some { s with consumer := .loadHead } else none
  | .produce i => s.produce i
  | .consume i => s.consume i
  | .throws =>
    match s.producer with
    | .construct _ t =>
      match s.mem.touch .producer t with
      | some m => some { s with mem := m, producer := .thrown }
      | none => some { s with producer := .fault }
    | _ => none

inductive Run (cap : Nat) : Spsc α → Prop
  | init : Run cap (.new cap)
  | step {s s' : Spsc α} (a : Act α) : Run cap s → s.step a = some s' → Run cap s'

/-- The ring as the newest stores to `head` and `tail` have it. -/
def Spsc.newest (s : Spsc α) : LatchFree.Spsc α :=
  { cap := s.cap
    data := s.data
    head := s.released % s.cap
    tail := s.stored.length % s.cap
    producer := s.producer
    consumer := s.consumer
    stored := s.stored
    popped := s.popped
    released := s.released }

end Wtfsc.LatchFree.Orders
