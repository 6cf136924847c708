/-
  Wtfsc.ThreadSafe.Stack — `ConcurrentStack` of src/thread-safe/stack.cpp, any number of
  stacks and calls.

  A stack is its mutex and its elements, the top first. A call locks `m_` of one stack, does
  its body and unlocks on every way out, a throw too; the copy constructor locks its
  argument. `push`, the copy of `s_` and `make_shared` ask for memory, and a step is told
  whether there is any (`avail`); elements are taken to move without throwing. What a
  constructor that throws has made is destroyed after the lock is given back
  (`Pc.unwind`). Using a stack that is not there is a `fault`, and so is `top` of no elements.
-/

import Mathlib.Logic.Function.Basic
import Mathlib.Tactic.Common
import Wtfsc.Lib.Ledger

namespace Wtfsc.ConcurrentStack

open Function
open Wtfsc.Linearize

variable {α : Type}

/-- `std::shared_ptr<T> pop()` and `void pop(T& res)` -/
inductive PopKind where
  | shared
  | into
  deriving DecidableEq, Repr

/-- The member functions, with the stack they are called on; `copy rhs self` constructs `self`. -/
inductive Op (α : Type) where
  | construct (self : Nat)
  | copy (rhs self : Nat)
  | push (self : Nat) (x : α)
  | empty (self : Nat)
  | pop (self : Nat) (k : PopKind)
  deriving DecidableEq, Repr

inductive Ret (α : Type) where
  | unit
  | bool (b : Bool)
  | value (x : α)
  /-- `throw EmptyStack()` -/
  | emptyStack
  | badAlloc
  deriving DecidableEq, Repr

/-- Where a call stands, with its locals. -/
inductive Pc (α : Type) where
  | idle
  /-- A constructor initialises its members. -/
  | members (op : Op α) (self : Nat)
  | lock (op : Op α) (m : Nat)
  | body (op : Op α) (m : Nat)
  /-- `pop` moves out of `s_.top()`. -/
  | top (m : Nat) (k : PopKind)
  /-- `s_.pop()` -/
  | drop (m : Nat) (k : PopKind) (x : α)
  | unlock (op : Op α) (m : Nat) (r : Ret α)
  | unwind (rhs self : Nat)
  | ret (op : Op α) (r : Ret α)
  | returned
  | fault
  deriving DecidableEq, Repr

structure Stack (α : Type) where
  mutex : Option Nat
  elems : List α

structure State (α : Type) where
  objs : Nat → Option (Stack α)
  pc : Nat → Pc α

def State.init : State α := ⟨fun _ => none, fun _ => .idle⟩

def State.goto (s : State α) (c : Nat) (p : Pc α) : State α := { s with pc := update s.pc c p }

def State.put (s : State α) (k : Nat) (o : Option (Stack α)) : State α := { s with objs := update s.objs k o }

/-- Where a call starts: constructors at their members, the others at the lock. -/
def start : Op α → Pc α
  | .construct self => .members (.construct self) self
  | .copy rhs self => .members (.copy rhs self) self
  | .push self x => .lock (.push self x) self
  | .empty self => .lock (.empty self) self
  | .pop self k => .lock (.pop self k) self

/-- What a call does once it has `o` locked. -/
def State.runBody (s : State α) (avail : Bool) (c : Nat) (op : Op α) (m : Nat) (o : Stack α) : State α :=
  match op with
  | .construct _ => s.goto c .fault
  | .copy _ self =>
    if avail then
      match s.objs self with
      | some n => (s.put self (some { n with elems := o.elems })).goto c (.unlock op m .unit)
      | none => s.goto c .fault
    else s.goto c (.unlock op m .badAlloc)
  | .push _ x =>
    if avail then (s.put m (some { o with elems := x :: o.elems })).goto c (.unlock op m .unit)
    else s.goto c (.unlock op m .badAlloc)
  | .empty _ => s.goto c (.unlock op m (.bool o.elems.isEmpty))
  | .pop _ k => if o.elems.isEmpty then s.goto c (.unlock op m .emptyStack) else s.goto c (.top m k)

/-- Where a call goes when it has given the lock back. -/
def afterUnlock (op : Op α) (r : Ret α) : Pc α :=
  match op, r with
  | .copy rhs self, .badAlloc => .unwind rhs self
  | _, _ => .ret op r

/-- The next step of call `c`; a lock step has to wait for a free mutex. -/
def State.run (s : State α) (avail : Bool) (c : Nat) : Option (State α) :=
  match s.pc c with
  | .members op self =>
    match s.objs self with
    | some _ => some (s.goto c .fault)
    | none =>
      let s := s.put self (some ⟨none, []⟩)
      match op with
      | .copy rhs _ => some (s.goto c (.lock op rhs))
      | _ => some (s.goto c (.ret op .unit))
  | .lock op m =>
    match s.objs m with
    | some o => if o.mutex = none then some ((s.put m (some { o with mutex := some c })).goto c (.body op m)) else none
    | none => some (s.goto c .fault)
  | .body op m =>
    match s.objs m with
    | some o => some (s.runBody avail c op m o)
    | none => some (s.goto c .fault)
  | .top m k =>
    match s.objs m with
    | some ⟨_, x :: _⟩ =>
      -- `make_shared` allocates before it moves
      match k, avail with
      | .shared, false => some (s.goto c (.unlock (.pop m k) m .badAlloc))
      | _, _ => some (s.goto c (.drop m k x))
    | _ => some (s.goto c .fault)
  | .drop m k x =>
    match s.objs m with
    | some ⟨h, _ :: l⟩ => some ((s.put m (some ⟨h, l⟩)).goto c (.unlock (.pop m k) m (.value x)))
    | _ => some (s.goto c .fault)
  | .unlock op m r =>
    match s.objs m with
    | some o => some ((s.put m (some { o with mutex := none })).goto c (afterUnlock op r))
    | none => some (s.goto c .fault)
  | .unwind rhs self => some ((s.put self none).goto c (.ret (.copy rhs self) .badAlloc))
  | .ret _ _ => some (s.goto c .returned)
  | .idle | .returned | .fault => none

inductive Act (α : Type) where
  | invoke (c : Nat) (op : Op α)
  | run (avail : Bool) (c : Nat)
  deriving DecidableEq, Repr

def State.step (s : State α) : Act α → Option (State α)
  | .invoke c op =>
    match s.pc c with
    | .idle => some (s.goto c (start op))
    | _ => none
  | .run avail c => s.run avail c

/-- What a step shows of the history: invocations and answers. -/
def State.events (s : State α) : Act α → List (Event (Op α) (Ret α))
  | .invoke c op => [.inv c op]
  | .run _ c =>
    match s.pc c with
    | .ret _ r => [.res c r]
    | _ => []

/-! ## What clients keep to -/

def Op.makes : Op α → Option Nat
  | .construct self | .copy _ self => some self
  | _ => none

/-- The stack a call is made on. -/
def Op.on : Op α → Option Nat
  | .construct _ => none
  | .copy rhs _ => some rhs
  | .push self _ | .empty self | .pop self _ => some self

/-- The stack a call has not yet done constructing. -/
def Pc.makes : Pc α → Option Nat
  | .members op _ | .lock op _ | .body op _ | .unlock op _ _ | .ret op _ => op.makes
  | .unwind _ self => some self
  | _ => none

/-- A call is made on a stack whose constructor has returned, and a constructor where nothing is. -/
def State.MayCall (s : State α) (op : Op α) : Prop :=
  (∀ k, op.on = some k → s.objs k ≠ none ∧ ∀ d, (s.pc d).makes ≠ some k) ∧
    ∀ k, op.makes = some k → s.objs k = none ∧ ∀ d, (s.pc d).makes ≠ some k

def State.Allowed (s : State α) : Act α → Prop
  | .invoke _ op => s.MayCall op
  | .run _ _ => True

/-- One step of the program, with what it shows. -/
def Moves (s : State α) (ev : List (Event (Op α) (Ret α))) (s' : State α) : Prop :=
  ∃ a, s.Allowed a ∧ s.step a = some s' ∧ ev = s.events a

abbrev Run : List (Event (Op α) (Ret α)) → State α → Prop := Shown Moves .init

/-! ## What the stacks stand for -/

/-- The stacks that are there and their elements, the top first. -/
abbrev Contents (α : Type) := Nat → Option (List α)

/-- The calls one after another. One that throws changes nothing. -/
inductive Lifo : Contents α → Op α → Ret α → Contents α → Prop
  | construct {q : Contents α} {k : Nat} : q k = none → Lifo q (.construct k) .unit (update q k (some []))
  | copy {q : Contents α} {k j : Nat} {l : List α} :
      q k = some l → q j = none → Lifo q (.copy k j) .unit (update q j (some l))
  | copyFails {q : Contents α} {k j : Nat} : q k ≠ none → q j = none → Lifo q (.copy k j) .badAlloc q
  | push {q : Contents α} {k : Nat} {x : α} {l : List α} :
      q k = some l → Lifo q (.push k x) .unit (update q k (some (x :: l)))
  | pushFails {q : Contents α} {k : Nat} {x : α} : q k ≠ none → Lifo q (.push k x) .badAlloc q
  | empty {q : Contents α} {k : Nat} {l : List α} : q k = some l → Lifo q (.empty k) (.bool l.isEmpty) q
  | pop {q : Contents α} {k : Nat} {p : PopKind} {x : α} {l : List α} :
      q k = some (x :: l) → Lifo q (.pop k p) (.value x) (update q k (some l))
  | popEmpty {q : Contents α} {k : Nat} {p : PopKind} : q k = some [] → Lifo q (.pop k p) .emptyStack q
  | popFails {q : Contents α} {k : Nat} {x : α} {l : List α} :
      q k = some (x :: l) → Lifo q (.pop k .shared) .badAlloc q

end Wtfsc.ConcurrentStack
