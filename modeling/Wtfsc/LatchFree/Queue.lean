/-
  Wtfsc.LatchFree.Queue — `LockFreeQueue` of src/latch-free/queue.cpp: pushes of any
  number of threads, access by access, then one consumer.

  A step of `push` is the allocation of `new_node`, the load of `tail`, the swap of the
  data into the node loaded (what the swap takes out is dropped when the call ends), the
  write of that node's `next`, or the store of `tail`. `Node()` gives a node the data
  `T()` and leaves `next` indeterminate (`none`). `pop` runs alone; it reads `next`
  before it gives the old head away, and reading an indeterminate `next`, like any access
  to a deleted node, is undefined (`none` in `State.pop`, `fault` in a push).

  `calls` logs who pushed what, in the order the calls began.
-/

import Mathlib.Data.List.Perm.Basic
import Wtfsc.Lib.Links

namespace Wtfsc.LockFreeQueue

open Function

variable {α : Type}

structure Node (α : Type) where
  data : α
  next : Option Nat

/-- Where a thread stands in `push`, with its locals. -/
inductive Pc (α : Type) where
  | idle
  | newNode (data : α)
  | loadTail (data : α) (newNode : Nat)
  | swapData (data : α) (newNode oldTail : Nat)
  | setNext (data : α) (newNode oldTail : Nat)
  | storeTail (data : α) (newNode : Nat)
  | returned
  | fault

structure State (α : Type) where
  nodes : Nat → Option (Node α)
  fresh : Nat
  head : Nat
  tail : Nat
  pc : Nat → Pc α
  calls : List (Nat × α)

def State.goto (s : State α) (t : Nat) (p : Pc α) : State α := { s with pc := update s.pc t p }

def State.setNode (s : State α) (a : Nat) (nd : Option (Node α)) : State α := { s with nodes := update s.nodes a nd }

/-- The thread may begin a call. -/
def Pc.ready : Pc α → Bool
  | .idle | .returned => true
  | _ => false

section Push

variable [Inhabited α]

/-- `Node()` -/
def Node.new : Node α := ⟨default, none⟩

/-- `LockFreeQueue()` -/
def State.init : State α :=
  { nodes := update (fun _ => none) 0 (some .new)
    fresh := 1
    head := 0
    tail := 0
    pc := fun _ => .idle
    calls := [] }

/-- The next step of thread `t` in its push. -/
def State.run (s : State α) (t : Nat) : Option (State α) :=
  match s.pc t with
  | .newNode x =>
    some (({ s with fresh := s.fresh + 1 }.setNode s.fresh (some .new)).goto t (.loadTail x s.fresh))
  | .loadTail x n => some (s.goto t (.swapData x n s.tail))
  | .swapData x n o =>
    match s.nodes o with
    | some nd => some ((s.setNode o (some { nd with data := x })).goto t (.setNext x n o))
    | none => some (s.goto t .fault)
  | .setNext x n o =>
    match s.nodes o with
    | some nd => some ((s.setNode o (some { nd with next := some n })).goto t (.storeTail x n))
    | none => some (s.goto t .fault)
  | .storeTail _ n => some ({ s with tail := n }.goto t .returned)
  | .idle | .returned | .fault => none

inductive Act (α : Type) where
  | push (t : Nat) (data : α)
  | run (t : Nat)

def State.step (s : State α) : Act α → Option (State α)
  | .push t x =>
    if (s.pc t).ready then some ({ s with calls := s.calls ++ [(t, x)] }.goto t (.newNode x)) else none
  | .run t => s.run t

/-- The runs of a fresh queue, with their actions. -/
inductive Run : List (Act α) → State α → Prop
  | nil : Run [] .init
  | snoc {as : List (Act α)} {s s' : State α} (a : Act α) : Run as s → s.step a = some s' → Run (as ++ [a]) s'

/-- The thread has loaded `tail` and not stored it yet. -/
def Pc.between : Pc α → Bool
  | .swapData _ _ _ | .setNext _ _ _ | .storeTail _ _ => true
  | _ => false

def Pc.loading : Pc α → Bool
  | .loadTail _ _ => true
  | _ => false

/-- If action `a` loads `tail`, no push stands between its load and its store of `tail`. -/
def State.Clear (s : State α) : Act α → Prop
  | .push _ _ => True
  | .run t => (s.pc t).loading = true → ∀ t', (s.pc t').between = false

/-- Every step of the run finds the state clear. -/
def Separate (as : List (Act α)) : Prop := ∀ pre a s, pre ++ [a] <+: as → Run pre s → s.Clear a

/-- The run of a schedule, if all its actions can happen. -/
def State.exec (s : State α) : List (Act α) → Option (State α)
  | [] => some s
  | a :: as => (s.step a).bind (·.exec as)

theorem exec_run {as bs : List (Act α)} {s s' : State α} (h : Run as s) (e : s.exec bs = some s') :
    Run (as ++ bs) s' := by
  induction bs generalizing as s with
  | nil =>
    cases e
    rwa [List.append_nil]
  | cons b bs ih =>
    obtain ⟨r, hr, e⟩ := Option.bind_eq_some_iff.mp e
    rw [List.append_cons]
    exact ih (h.snoc b hr) e

end Push

/-! ## The consumer -/

/-- `pop()`, alone: what it answers, and the queue it leaves. -/
def State.pop (s : State α) : Option (Option α × State α) :=
  if s.head = s.tail then some (none, s)
  else
    match s.nodes s.head with
    | some ⟨x, some n⟩ => some (some x, { s with head := n }.setNode s.head none)
    | _ => none

/-- Popping until null answers the values `out`. -/
inductive Drains : State α → List α → Prop
  | null {s s' : State α} : s.pop = some (none, s') → Drains s []
  | value {s s' : State α} {x : α} {out : List α} : s.pop = some (some x, s') → Drains s' out → Drains s (x :: out)

open scoped List in
/-- `out` is every value pushed, once, those of each thread in the order it pushed them. -/
def Delivers (calls : List (Nat × α)) (out : List α) : Prop :=
  ∃ order : List (Nat × α), order ~ calls ∧
    (∀ t, order.filter (fun e => e.1 = t) = calls.filter fun e => e.1 = t) ∧ out = order.map (·.2)

theorem Drains.det {s : State α} {out out' : List α} (h : Drains s out) (h' : Drains s out') : out = out' := by
  induction h generalizing out' with
  | null hp =>
    cases h' with
    | null => rfl
    | value hp' => rw [hp] at hp'; cases hp'
  | value hp _ ih =>
    cases h' with
    | null hp' => rw [hp] at hp'; cases hp'
    | value hp' h' =>
      rw [hp] at hp'
      cases hp'
      rw [ih h']

end Wtfsc.LockFreeQueue
