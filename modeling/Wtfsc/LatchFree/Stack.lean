/-
  Wtfsc.LatchFree.Stack — `LockFreeStack` of src/latch-free/stack.cpp, access by access.

  A call is a number, as in `Wtfsc.ThreadSafe.Queue`. A step is one atomic load or
  compare-exchange of `head`, or one access to a node. `compare_exchange_weak` compares
  with its first argument and, when it fails, writes what it saw there; it may fail
  although the two are equal (`Act.spurious`). `pop` loads `head` again after a failure,
  so what the failed exchange left in `old_head` is not kept. No node is ever freed, so
  an address is never given out twice. Following a pointer to no node is a `fault`.
-/

import Mathlib.Data.List.Perm.Basic
import Wtfsc.Lib.Linearize
import Wtfsc.Lib.Links

namespace Wtfsc.LockFreeStack

open Function
open Wtfsc.Linearize

variable {α : Type}

structure Node (α : Type) where
  data : α
  next : Option Nat

inductive Op (α : Type) where
  | push (data : α)
  | pop
  deriving DecidableEq, Repr

/-- A push answers nothing, a pop a `shared_ptr`. -/
inductive Ret (α : Type) where
  | unit
  | ptr (v : Option α)
  deriving DecidableEq, Repr

/-- Where a call stands, with its locals. -/
inductive Pc (α : Type) where
  | idle
  | pushNew (data : α)
  | pushLoad (newNode : Nat)
  | pushSetNext (newNode : Nat) (head : Option Nat)
  | pushCas (newNode : Nat)
  | popLoad
  | popNext (oldHead : Nat)
  | popCas (oldHead : Nat) (next : Option Nat)
  | popData (oldHead : Nat)
  | ret (r : Ret α)
  | returned
  | fault
  deriving DecidableEq, Repr

structure State (α : Type) where
  nodes : Nat → Option (Node α)
  fresh : Nat
  head : Option Nat
  pc : Nat → Pc α

def State.init : State α :=
  { nodes := fun _ => none
    fresh := 0
    head := none
    pc := fun _ => .idle }

def State.goto (s : State α) (c : Nat) (p : Pc α) : State α := { s with pc := update s.pc c p }

def State.setNode (s : State α) (a : Nat) (nd : Node α) : State α := { s with nodes := update s.nodes a (some nd) }

def start : Op α → Pc α
  | .push x => .pushNew x
  | .pop => .popLoad

/-- `head.compare_exchange_weak` fails: a push keeps what it saw in `new_node->next`, a pop starts over. -/
def State.casFails (s : State α) (c : Nat) : Option (State α) :=
  match s.pc c with
  | .pushCas n =>
    match s.nodes n with
    | some nd => some ((s.setNode n { nd with next := s.head }).goto c (.pushCas n))
    | none => some (s.goto c .fault)
  | .popCas _ _ => some (s.goto c .popLoad)
  | _ => none

/-- The next step of call `c`, where no compare-exchange fails without need. -/
def State.run (s : State α) (c : Nat) : Option (State α) :=
  match s.pc c with
  | .pushNew x =>
    some (({ s with fresh := s.fresh + 1 }.setNode s.fresh ⟨x, none⟩).goto c (.pushLoad s.fresh))
  | .pushLoad n => some (s.goto c (.pushSetNext n s.head))
  | .pushSetNext n h =>
    match s.nodes n with
    | some nd => some ((s.setNode n { nd with next := h }).goto c (.pushCas n))
    | none => some (s.goto c .fault)
  | .pushCas n =>
    match s.nodes n with
    | some nd => if s.head = nd.next then some ({ s with head := some n }.goto c (.ret .unit)) else s.casFails c
    | none => some (s.goto c .fault)
  | .popLoad =>
    match s.head with
    | none => some (s.goto c (.ret (.ptr none)))
    | some a => some (s.goto c (.popNext a))
  | .popNext a =>
    match s.nodes a with
    | some nd => some (s.goto c (.popCas a nd.next))
    | none => some (s.goto c .fault)
  | .popCas a n =>
    if s.head = some a then some ({ s with head := n }.goto c (.popData a)) else s.casFails c
  | .popData a =>
    match s.nodes a with
    | some nd => some (s.goto c (.ret (.ptr (some nd.data))))
    | none => some (s.goto c .fault)
  | .ret _ => some (s.goto c .returned)
  | .idle | .returned | .fault => none

inductive Act (α : Type) where
  | invoke (c : Nat) (op : Op α)
  | run (c : Nat)
  | spurious (c : Nat)

def State.step (s : State α) : Act α → Option (State α)
  | .invoke c op =>
    match s.pc c with
    | .idle => some (s.goto c (start op))
    | _ => none
  | .run c => s.run c
  | .spurious c => s.casFails c

/-- What a step shows of the history: invocations and answers. -/
def State.events (s : State α) : Act α → List (Event (Op α) (Ret α))
  | .invoke c op => [.inv c op]
  | .run c =>
    match s.pc c with
    | .ret r => [.res c r]
    | _ => []
  | .spurious _ => []

/-- From one state on to another, with what happened in between. -/
inductive Steps : State α → List (Event (Op α) (Ret α)) → State α → Prop
  | refl (s : State α) : Steps s [] s
  | snoc {s₀ s s' : State α} {h : List (Event (Op α) (Ret α))} (a : Act α) :
      Steps s₀ h s → s.step a = some s' → Steps s₀ (h ++ s.events a) s'

/-- The runs of a stack whose `head` starts at null. -/
abbrev Run (h : List (Event (Op α) (Ret α))) (s : State α) : Prop := Steps .init h s

/-- The run of a schedule, with its history; an action that cannot happen is skipped. -/
def State.exec (s : State α) (h : List (Event (Op α) (Ret α))) :
    List (Act α) → List (Event (Op α) (Ret α)) × State α
  | [] => (h, s)
  | a :: as =>
    match s.step a with
    | some s' => s'.exec (h ++ s.events a) as
    | none => s.exec h as

theorem exec_run {s : State α} {h : List (Event (Op α) (Ret α))} (hr : Run h s) (as : List (Act α)) :
    Run (s.exec h as).1 (s.exec h as).2 := by
  induction as generalizing s h with
  | nil => exact hr
  | cons a as ih =>
    unfold State.exec
    split
    · next s' hs => exact ih (hr.snoc a hs)
    · exact ih hr

/-! ## What the stack holds -/

def State.next (s : State α) (a : Nat) : Option Nat := (s.nodes a).bind (·.next)

def State.data (s : State α) (a : Nat) : Option α := (s.nodes a).map (·.data)

/-- Following `next` from `head` to null passes nodes with the data `q`. -/
def State.Reaches (s : State α) (q : List α) : Prop :=
  ∃ l, Links.Path s.next s.head l none ∧ l.map s.data = q.map some

/-- The call's effect on the stack has happened: its compare-exchange succeeded, or it read a null `head`. -/
def Pc.effected : Pc α → Bool
  | .popData _ | .ret _ | .returned => true
  | _ => false

/-! ## The sequential stack -/

inductive Lifo : List α → Op α → Ret α → List α → Prop
  | push (q : List α) (x : α) : Lifo q (.push x) .unit (x :: q)
  | pop (q : List α) (x : α) : Lifo (x :: q) .pop (.ptr (some x)) q
  | empty : Lifo [] .pop (.ptr none) []

/-- The values pushed, in the order the pushes took effect. -/
def pushedVals (lin : List (Entry (Op α) (Ret α))) : List α :=
  lin.filterMap fun e => match e.op with | .push x => some x | .pop => none

/-- The values popped, in the order the pops took effect. -/
def poppedVals (lin : List (Entry (Op α) (Ret α))) : List α :=
  lin.filterMap fun e => match e.op, e.ret with | .pop, .ptr v => v | _, _ => none

open scoped List in
/-- What was pushed is what was popped and what is left. -/
theorem lifo_vals {lin : List (Entry (Op α) (Ret α))} {q : List α} (h : Legal Lifo [] lin q) :
    pushedVals lin ~ poppedVals lin ++ q := by
  induction h with
  | nil => exact .refl _
  | @snoc lin q q' e hl hs ih =>
    obtain ⟨d, op, r⟩ := e
    cases hs with
    | push q x =>
      have : pushedVals lin ++ [x] ~ poppedVals lin ++ x :: q :=
        ((ih.append_right [x]).trans (List.append_assoc .. ▸ List.perm_append_comm.append_left _))
      simpa [pushedVals, poppedVals] using this
    | pop q x => simpa [pushedVals, poppedVals] using ih
    | empty => simpa [pushedVals, poppedVals] using ih

end Wtfsc.LockFreeStack
