/-
  Wtfsc.ThreadPool.ThreadPool — `ThreadPool` of src/parallel-sparse-matrix/thread_pool.h
  (src/thread-pool/thread_pool.h is the same code with other names), thread by thread.

  The actors are the workers, the calls of `enqueue` and the destructor. A call of
  `enqueue` may come at any time and from anybody, a running task included; task `t` is
  the one that call `t` hands in. A step is one lock or unlock of `mtx`, one evaluation of
  the wait predicate or of an `if`, the atomic release and block of `cv.wait`, a wake-up,
  one change of `tasks` or `stop`, the start or the end of a task, one notification, or
  one `join`. A call of `enqueue` that goes on when the destructor has returned would use
  a dead object; here it finds `stop` set.

  Four logs record what no field of the pool tells afterwards: the tasks in the order in
  which they were accepted, dequeued, started and finished.
-/

import Mathlib.Logic.Function.Basic
import Mathlib.Tactic.Common

namespace Wtfsc.ThreadPool

open Function

inductive Who where
  | worker (i : Nat)
  | call (t : Nat)
  | dtor
  deriving DecidableEq, Repr

/-- Where an actor stands, with its locals. -/
inductive Pc where
  | idle
  /-- The worker loop: about to lock `mtx`. -/
  | lock
  /-- The wait predicate. -/
  | test
  /-- The wait predicate was false: about to release the mutex and block. -/
  | block
  | blocked
  | woken
  /-- `if (stop && tasks.empty())` -/
  | exitTest
  | take
  | unlock (task : Nat)
  | call (task : Nat)
  | running (task : Nat)
  | unlockExit
  | exited
  /-- `enqueue`: about to lock `mtx`. -/
  | enqLock (task : Nat)
  /-- `if (stop)` -/
  | enqTest (task : Nat)
  | enqPush (task : Nat)
  | enqUnlock (task : Nat)
  | enqNotify (task : Nat)
  | enqReturned (task : Nat)
  | enqUnlockThrow (task : Nat)
  | enqThrown (task : Nat)
  /-- `~ThreadPool`: about to lock `mtx`. -/
  | dtorLock
  | dtorStop
  | dtorUnlock
  | dtorNotify
  | join (i : Nat)
  | dtorReturned
  | fault
  deriving DecidableEq, Repr

structure PState where
  /-- `workers.size()` -/
  n : Nat
  tasks : List Nat
  stop : Bool
  mtx : Option Who
  pc : Who → Pc
  accepted : List Nat
  dequeued : List Nat
  started : List Nat
  finished : List Nat

/-- `ThreadPool(n)` -/
def PState.init (n : Nat) : PState :=
  { n := n
    tasks := []
    stop := false
    mtx := none
    pc := fun
      | .worker i => if i < n then .lock else .idle
      | _ => .idle
    accepted := []
    dequeued := []
    started := []
    finished := [] }

def PState.goto (s : PState) (w : Who) (p : Pc) : PState := { s with pc := update s.pc w p }

/-- Lock `mtx`, once it is free. -/
def PState.lock (s : PState) (w : Who) (p : Pc) : Option PState :=
  if s.mtx = none then some ({ s with mtx := some w }.goto w p) else none

def PState.unlock (s : PState) (w : Who) (p : Pc) : PState := { s with mtx := none }.goto w p

/-- `stop || !tasks.empty()` -/
def PState.ready (s : PState) : Bool := s.stop || !s.tasks.isEmpty

/-- The next step of `w`; a lock has to wait for a free mutex, a `join` for its worker. -/
def PState.run (s : PState) (w : Who) : Option PState :=
  match s.pc w with
  | .lock | .woken => s.lock w .test
  | .test => some (s.goto w (if s.ready then .exitTest else .block))
  | .block => some (s.unlock w .blocked)
  | .exitTest => some (s.goto w (if s.stop && s.tasks.isEmpty then .unlockExit else .take))
  | .take =>
    match s.tasks with
    | t :: ts => some ({ s with tasks := ts, dequeued := s.dequeued ++ [t] }.goto w (.unlock t))
    | [] => some (s.goto w .fault)
  | .unlock t => some (s.unlock w (.call t))
  | .call t => some ({ s with started := s.started ++ [t] }.goto w (.running t))
  | .running t => some ({ s with finished := s.finished ++ [t] }.goto w .lock)
  | .unlockExit => some (s.unlock w .exited)
  | .enqLock t => s.lock w (.enqTest t)
  | .enqTest t => some (s.goto w (if s.stop then .enqUnlockThrow t else .enqPush t))
  | .enqPush t => some ({ s with tasks := s.tasks ++ [t], accepted := s.accepted ++ [t] }.goto w (.enqUnlock t))
  | .enqUnlock t => some (s.unlock w (.enqNotify t))
  | .enqUnlockThrow t => some (s.unlock w (.enqThrown t))
  | .dtorLock => s.lock w .dtorStop
  | .dtorStop => some ({ s with stop := true }.goto w .dtorUnlock)
  | .dtorUnlock => some (s.unlock w .dtorNotify)
  | .join i =>
    if i < s.n then
      if s.pc (.worker i) = .exited then some (s.goto w (.join (i + 1))) else none
    else some (s.goto w .dtorReturned)
  | .idle | .blocked | .exited | .enqNotify _ | .enqReturned _ | .enqThrown _ | .dtorNotify | .dtorReturned | .fault =>
    none

/-- The blocked workers wake up: they have to take the mutex again. -/
def wakeAll (pc : Who → Pc) (w : Who) : Pc := if pc w = .blocked then .woken else pc w

inductive Act where
  /-- A call of `enqueue`. -/
  | enqueue (t : Nat)
  /-- The destructor is called. -/
  | destroy
  | run (w : Who)
  /-- `cv.notify_one()` of call `t` wakes worker `i`, or nobody when nobody is blocked. -/
  | notifyOne (t : Nat) (i : Option Nat)
  /-- `cv.notify_all()` of the destructor. -/
  | notifyAll
  | spurious (i : Nat)
  deriving DecidableEq, Repr

def PState.step (s : PState) : Act → Option PState
  | .enqueue t => if s.pc (.call t) = .idle then some (s.goto (.call t) (.enqLock t)) else none
  | .destroy => if s.pc .dtor = .idle then some (s.goto .dtor .dtorLock) else none
  | .run w => s.run w
  | .notifyOne t i =>
    if s.pc (.call t) = .enqNotify t then
      match i with
      | some i =>
        if s.pc (.worker i) = .blocked then some ((s.goto (.worker i) .woken).goto (.call t) (.enqReturned t)) else none
      | none =>
        if ∀ i < s.n, s.pc (.worker i) ≠ .blocked then some (s.goto (.call t) (.enqReturned t)) else none
    else none
  | .notifyAll => if s.pc .dtor = .dtorNotify then some ({ s with pc := wakeAll s.pc }.goto .dtor (.join 0)) else none
  | .spurious i => if s.pc (.worker i) = .blocked then some (s.goto (.worker i) .woken) else none

/-- The states a pool of `n` workers can come to. -/
inductive Run (n : Nat) : PState → Prop
  | init : Run n (.init n)
  | step {s s' : PState} (a : Act) : Run n s → s.step a = some s' → Run n s'

/-- The run of a schedule; an action that cannot happen is skipped. -/
def PState.exec (s : PState) : List Act → PState
  | [] => s
  | a :: as => ((s.step a).getD s).exec as

theorem exec_run {n : Nat} {s : PState} (h : Run n s) (as : List Act) : Run n (s.exec as) := by
  induction as generalizing s with
  | nil => exact h
  | cons a as ih =>
    refine ih ?_
    cases hs : s.step a with
    | none => exact h
    | some s' => exact h.step a hs

end Wtfsc.ThreadPool
