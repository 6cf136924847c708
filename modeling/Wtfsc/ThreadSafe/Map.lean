/-
  Wtfsc.ThreadSafe.Map — `ConcurrentMap` of src/thread-safe/map.cpp and
  src/hashmap/concurrent_map.cpp, lock section by lock section.

  A call is a number, as in `Wtfsc.ThreadSafe.Queue`. It picks its bucket before it takes
  any lock. Inside the bucket's `shared_mutex` it looks for the key (`find_if`), then
  reads, assigns, appends or erases at the iterator it found, then gives the lock back;
  another thread may step in between. An iterator is a position, the end being the
  length. `buckets_.size()` is `n` and `hasher_` any function; a remainder by 0 and an
  iterator past the end are a `fault`.
-/

import Wtfsc.Cpp
import Wtfsc.Lib.Assoc
import Wtfsc.Lib.Linearize

namespace Wtfsc.ConcurrentMap

open Function
open Wtfsc.Cpp Wtfsc.Linearize

variable {K V : Type}

inductive Op (K V : Type) where
  | get (k : K) (defaultValue : V)
  | set (k : K) (v : V)
  | erase (k : K)
  deriving DecidableEq, Repr

inductive Ret (V : Type) where
  | unit
  | value (v : V)
  deriving DecidableEq, Repr

def Op.key : Op K V → K
  | .get k _ | .set k _ | .erase k => k

/-- The call takes a `shared_lock`. -/
def Op.reads : Op K V → Bool
  | .get _ _ => true
  | .set _ _ | .erase _ => false

/-- Where a call stands, with its locals. -/
inductive Pc (K V : Type) where
  | idle
  | lock (op : Op K V) (bucket : Nat)
  | find (op : Op K V) (bucket : Nat)
  | act (op : Op K V) (bucket it : Nat)
  | unlock (op : Op K V) (bucket : Nat) (r : Ret V)
  | ret (op : Op K V) (r : Ret V)
  | returned
  | fault
  deriving DecidableEq, Repr

structure State (K V : Type) where
  data : Nat → List (K × V)
  /-- Who holds a bucket's mutex alone. -/
  writer : Nat → Option Nat
  /-- Who shares it. -/
  readers : Nat → List Nat
  pc : Nat → Pc K V

def State.init : State K V :=
  { data := fun _ => []
    writer := fun _ => none
    readers := fun _ => []
    pc := fun _ => .idle }

def State.goto (s : State K V) (c : Nat) (p : Pc K V) : State K V := { s with pc := update s.pc c p }

@[simp] theorem goto_data (s : State K V) (c : Nat) (p : Pc K V) : (s.goto c p).data = s.data := rfl

@[simp] theorem goto_pc (s : State K V) (c : Nat) (p : Pc K V) : (s.goto c p).pc = update s.pc c p := rfl

def getBucket (n : Nat) (hasher : K → Nat) (k : K) : Exec Nat :=
  if n = 0 then .error .ub else .ok (hasher k % n)

section
variable [BEq K]

/-- `std::find_if` for the key. -/
def findIf (data : List (K × V)) (k : K) : Nat := data.findIdx fun x => x.1 == k

/-- What `Bucket::get`, `set` and `erase` do with the iterator. -/
def actAt (data : List (K × V)) (it : Nat) : Op K V → Exec (List (K × V) × Ret V)
  | .get _ defaultValue =>
    if it = data.length then .ok (data, .value defaultValue)
    else do
      let x ← at_ data it
      return (data, .value x.2)
  | .set k v =>
    if it = data.length then .ok (data ++ [(k, v)], .unit)
    else do
      let x ← at_ data it
      return (← setAt data it (x.1, v), .unit)
  | .erase _ =>
    if it = data.length then .ok (data, .unit) else return (← eraseAt data it, .unit)

/-- The next step of call `c`; a lock step has to wait for the mutex. -/
def State.run (s : State K V) (c : Nat) : Option (State K V) :=
  match s.pc c with
  | .lock op b =>
    if op.reads then
      if s.writer b = none then
        some ({ s with readers := update s.readers b (c :: s.readers b) }.goto c (.find op b))
      else none
    else
      if s.writer b = none ∧ s.readers b = [] then
        some ({ s with writer := update s.writer b (some c) }.goto c (.find op b))
      else none
  | .find op b => some (s.goto c (.act op b (findIf (s.data b) op.key)))
  | .act op b it =>
    match actAt (s.data b) it op with
    | .ok (data, r) => some ({ s with data := update s.data b data }.goto c (.unlock op b r))
    | .error _ => some (s.goto c .fault)
  | .unlock op b r =>
    if op.reads then some ({ s with readers := update s.readers b ((s.readers b).erase c) }.goto c (.ret op r))
    else some ({ s with writer := update s.writer b none }.goto c (.ret op r))
  | .ret _ _ => some (s.goto c .returned)
  | .idle | .returned | .fault => none

inductive Act (K V : Type) where
  | invoke (c : Nat) (op : Op K V)
  | run (c : Nat)

variable (n : Nat) (hasher : K → Nat)

def State.step (s : State K V) : Act K V → Option (State K V)
  | .invoke c op =>
    match s.pc c with
    | .idle =>
      match getBucket n hasher op.key with
      | .ok b => some (s.goto c (.lock op b))
      | .error _ => some (s.goto c .fault)
    | _ => none
  | .run c => s.run c

omit [BEq K] in
/-- What a step shows of the history: invocations and answers. -/
def State.events (s : State K V) : Act K V → List (Event (Op K V) (Ret V))
  | .invoke c op => [.inv c op]
  | .run c =>
    match s.pc c with
    | .ret _ r => [.res c r]
    | _ => []

/-- The runs of a map with `n` buckets, with what happened in them. -/
inductive Run : List (Event (Op K V) (Ret V)) → State K V → Prop
  | init : Run [] .init
  | step {hist : List (Event (Op K V) (Ret V))} {s s' : State K V} (a : Act K V) :
      Run hist s → s.step n hasher a = some s' → Run (hist ++ s.events a) s'

/-- The run of a schedule, with its history; an action that cannot happen is skipped. -/
def State.exec (s : State K V) (hist : List (Event (Op K V) (Ret V))) :
    List (Act K V) → List (Event (Op K V) (Ret V)) × State K V
  | [] => (hist, s)
  | a :: as =>
    match s.step n hasher a with
    | some s' => s'.exec (hist ++ s.events a) as
    | none => s.exec hist as

variable {n : Nat} {hasher : K → Nat}

theorem exec_run {s : State K V} {hist : List (Event (Op K V) (Ret V))} (h : Run n hasher hist s)
    (as : List (Act K V)) : Run n hasher (s.exec n hasher hist as).1 (s.exec n hasher hist as).2 := by
  induction as generalizing s hist with
  | nil => exact h
  | cons a as ih =>
    unfold State.exec
    split
    · next s' hs => exact ih (h.step a hs)
    · exact ih h

end

/-! ## The sequential map -/

section
variable [BEq K]

def after (m : K → Option V) : Op K V → K → Option V
  | .get _ _ => m
  | .set k v => fun x => if k == x then some v else m x
  | .erase k => fun x => if k == x then none else m x

def answer (m : K → Option V) : Op K V → Ret V
  | .get k defaultValue => .value ((m k).getD defaultValue)
  | .set _ _ | .erase _ => .unit

def FiniteMap (m : K → Option V) (op : Op K V) (r : Ret V) (m' : K → Option V) : Prop :=
  r = answer m op ∧ m' = after m op

/-- The value last set for `k` and not erased since. -/
def latest (lin : List (Entry (Op K V) (Ret V))) (k : K) : Option V :=
  lin.foldl (fun o e =>
    match e.op with
    | .get _ _ => o
    | .set j v => if j == k then some v else o
    | .erase j => if j == k then none else o) none

theorem latest_snoc (lin : List (Entry (Op K V) (Ret V))) (e : Entry (Op K V) (Ret V)) :
    latest (lin ++ [e]) = after (latest lin) e.op := by
  funext k
  obtain ⟨c, op, r⟩ := e
  rw [latest, List.foldl_append]
  cases op <;> rfl

/-- A sequential run leaves each key with the value last set and not erased since. -/
theorem legal_latest {lin : List (Entry (Op K V) (Ret V))} {m : K → Option V}
    (h : Legal FiniteMap (fun _ => none) lin m) : m = latest lin := by
  induction h with
  | nil => rfl
  | snoc _ hs ih => rw [latest_snoc, hs.2, ih]

/-- What a get answers in a sequential run. -/
theorem legal_get {lin : List (Entry (Op K V) (Ret V))} {m : K → Option V}
    (h : Legal FiniteMap (fun _ => none) lin m) {pre post : List (Entry (Op K V) (Ret V))} {c : Nat} {k : K} {d : V}
    {r : Ret V} (he : lin = pre ++ ⟨c, .get k d, r⟩ :: post) : r = .value ((latest pre k).getD d) := by
  induction h generalizing post with
  | nil => simp at he
  | @snoc lin m m' e hl hs ih =>
    rcases List.eq_nil_or_concat post with rfl | ⟨post', e', rfl⟩
    · -- the get is the last entry
      obtain ⟨rfl, hlast⟩ := List.append_inj' he rfl
      cases hlast
      rw [← legal_latest hl]
      exact hs.1
    · rw [List.concat_eq_append, ← List.cons_append, ← List.append_assoc] at he
      exact ih (List.append_inj' he rfl).1

end

end Wtfsc.ConcurrentMap
