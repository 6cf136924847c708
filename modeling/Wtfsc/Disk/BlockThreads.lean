/-
  Wtfsc.Disk.BlockThreads — `DiskManagerUnlimitedMemory` of
  src/disk/bustub/disk_manager_memory.cpp under any number of threads.

  A call is a number. A step takes or gives back `mutex_` or the lock of a block, does
  what the call does with `data_` under `mutex_` (`ensure`, `lookup`), or copies one
  byte; `memcpy` may take the bytes in any order. The lock of a block is held by one
  writer or by any number of readers, and is taken before `mutex_` is given back.

  `log` records the calls in the order in which they took `mutex_`.
-/

import Wtfsc.Disk.DiskManagerMemory

namespace Wtfsc.Disk

open Function
open Wtfsc.Cpp

/-- Where a call stands, with its locals; a read carries its buffer along. -/
inductive Pc where
  | idle
  | lock (op : BlockCall Bytes)
  | find (op : BlockCall Bytes)
  | page (op : BlockCall Bytes) (ptr : Nat)
  | unlock (op : BlockCall Bytes) (ptr : Nat)
  /-- The bytes `rest` are still to be copied. -/
  | copy (op : BlockCall Bytes) (ptr : Nat) (rest : List Nat)
  /-- The block to read is not there. -/
  | absent (op : BlockCall Bytes)
  | returned (found : Bool) (op : BlockCall Bytes)
  | fault

structure Threads where
  dm : DiskManagerUnlimitedMemory
  mutex : Option Nat
  /-- Who holds a block's lock alone. -/
  writer : Nat → Option Nat
  /-- Who shares it. -/
  readers : Nat → List Nat
  pc : Nat → Pc
  log : List (Nat × BlockCall Bytes)

def Threads.init : Threads :=
  { dm := .new
    mutex := none
    writer := fun _ => none
    readers := fun _ => []
    pc := fun _ => .idle
    log := [] }

def Threads.goto (s : Threads) (c : Nat) (p : Pc) : Threads := { s with pc := update s.pc c p }

/-- `memcpy` copies byte `k`. -/
def Threads.copyByte (s : Threads) (c k : Nat) : Option Threads :=
  match s.pc c with
  | .copy op ptr rest =>
    if k ∈ rest then
      match op with
      | .write b x =>
        some ({ s with dm := { s.dm with blocks := update s.dm.blocks ptr (update (s.dm.blocks ptr) k (x k)) } }.goto c
          (.copy (.write b x) ptr (rest.erase k)))
      | .read b buf => some (s.goto c (.copy (.read b (update buf k (s.dm.blocks ptr k))) ptr (rest.erase k)))
    else none
  | _ => none

/-- Any other step of call `c`; a lock step has to wait for the lock. -/
def Threads.run (s : Threads) (c : Nat) : Option Threads :=
  match s.pc c with
  | .lock op =>
    if s.mutex = none then some ({ s with mutex := some c, log := s.log ++ [(c, op)] }.goto c (.find op)) else none
  | .find (.write b x) =>
    match s.dm.ensure b with
    | .ok (dm, ptr) => some ({ s with dm := dm }.goto c (.page (.write b x) ptr))
    | .error _ => some (s.goto c .fault)
  | .find (.read b buf) =>
    match s.dm.lookup b with
    | .ok (some ptr) => some (s.goto c (.page (.read b buf) ptr))
    | .ok none => some (s.goto c (.absent (.read b buf)))
    | .error _ => some (s.goto c .fault)
  | .page (.write b x) ptr =>
    if s.writer ptr = none ∧ s.readers ptr = [] then
      some ({ s with writer := update s.writer ptr (some c) }.goto c (.unlock (.write b x) ptr))
    else none
  | .page (.read b buf) ptr =>
    if s.writer ptr = none then
      some ({ s with readers := update s.readers ptr (c :: s.readers ptr) }.goto c (.unlock (.read b buf) ptr))
    else none
  | .unlock op ptr => some ({ s with mutex := none }.goto c (.copy op ptr (List.range blockSize)))
  | .copy (.write b x) ptr [] =>
    some ({ s with writer := update s.writer ptr none }.goto c (.returned true (.write b x)))
  | .copy (.read b buf) ptr [] =>
    some ({ s with readers := update s.readers ptr ((s.readers ptr).erase c) }.goto c (.returned true (.read b buf)))
  | .absent op => some ({ s with mutex := none }.goto c (.returned false op))
  | .copy _ _ (_ :: _) | .idle | .returned _ _ | .fault => none

inductive ThreadAct where
  | invoke (c : Nat) (op : BlockCall Bytes)
  | run (c : Nat)
  | copyByte (c k : Nat)

def Threads.step (s : Threads) : ThreadAct → Option Threads
  | .invoke c op =>
    match s.pc c with
    | .idle => if IsSlot op.id then some (s.goto c (.lock op)) else none
    | _ => none
  | .run c => s.run c
  | .copyByte c k => s.copyByte c k

/-- The states calls with ids in 0..2^31-2 can come to. -/
inductive ThreadRun : Threads → Prop
  | init : ThreadRun .init
  | step {s s' : Threads} (a : ThreadAct) : ThreadRun s → s.step a = some s' → ThreadRun s'

/-- The call has begun and not returned. -/
def Pc.unfinished : Pc → Bool
  | .idle | .returned _ _ => false
  | _ => true

/-- The run of a schedule; an action that cannot happen is skipped. -/
def Threads.exec (s : Threads) : List ThreadAct → Threads
  | [] => s
  | a :: as => ((s.step a).getD s).exec as

theorem exec_threadRun {s : Threads} (h : ThreadRun s) (as : List ThreadAct) : ThreadRun (s.exec as) := by
  induction as generalizing s with
  | nil => exact h
  | cons a as ih =>
    refine ih ?_
    cases hs : s.step a with
    | none => exact h
    | some s' => exact h.step a hs

end Wtfsc.Disk
