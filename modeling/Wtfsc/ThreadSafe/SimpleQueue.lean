/-
  Wtfsc.ThreadSafe.SimpleQueue — `Queue` and `DummyQueue` of src/thread-safe/queue.cpp,
  the two linked queues before the one with locks.

  Both own their nodes from `head_` on and keep `tail_` as a raw pointer. `Queue` has one
  node for each value, `DummyQueue` one more behind the last. Only `push` writes `tail_`:
  - `dummy_fifo`: `DummyQueue` answers every run of `push`es and `try_pop`s first in
    first out.
  - `simple_fifo_iff`: `Queue` does so, with `tail_` at its last node, exactly when no
    `try_pop` takes the only value there is.
  - `push_after_empty`: the `try_pop` that does leaves `tail_` at the destroyed node, and
    the next `push` writes through it.
-/

import Mathlib.Data.List.Induction
import Wtfsc.Lib.Owned

namespace Wtfsc.SimpleQueue

open Wtfsc.Cpp
open Wtfsc.Owned

variable {α : Type}

inductive Op (α : Type) where
  | push (x : α)
  | tryPop
  deriving DecidableEq, Repr

structure Queue (α : Type) where
  heap : Heap α
  head : Option Nat
  tail : Option Nat

namespace Queue

def init : Queue α := ⟨.empty, none, none⟩

def push (q : Queue α) (x : α) : Exec (Queue α) :=
  let newNode := q.heap.fresh
  let heap := q.heap.new x
  match q.tail with
  | some t => do
    let heap' ← heap.link (some t) newNode
    .ok ⟨heap', q.head, some newNode⟩
  | none => do
    -- `head_` gives up what it owned
    let heap' ← Heap.destroy heap.fresh heap q.head
    .ok ⟨heap', some newNode, some newNode⟩

def tryPop (q : Queue α) : Exec (Queue α × Option α) :=
  match q.head with
  | none => .ok (q, none)
  | some a => do
    let nd ← q.heap.node (some a)
    let rest ← q.heap.pull (some a)
    .ok (⟨rest.1, rest.2, q.tail⟩, some nd.2.v)

/-- A call, and the answers of the `try_pop`s so far. -/
def step (s : Queue α × List (Option α)) : Op α → Exec (Queue α × List (Option α))
  | .push x => do
    let q ← s.1.push x
    .ok (q, s.2)
  | .tryPop => do
    let r ← s.1.tryPop
    .ok (r.1, s.2 ++ [r.2])

def run (ops : List (Op α)) : Exec (Queue α × List (Option α)) := ops.foldlM step (init, [])

end Queue

structure DummyQueue (α : Type) where
  heap : Heap (Option α)
  head : Option Nat
  tail : Option Nat

namespace DummyQueue

/-- `DummyQueue()` -/
def init : DummyQueue α := ⟨Heap.empty.new none, some 0, some 0⟩

def push (q : DummyQueue α) (x : α) : Exec (DummyQueue α) := do
  let newNode := q.heap.fresh
  let heap := q.heap.new none
  let nd ← heap.node q.tail
  let heap' ← (heap.put nd.1 (some { nd.2 with v := some x })).link q.tail newNode
  .ok ⟨heap', q.head, some newNode⟩

def tryPop (q : DummyQueue α) : Exec (DummyQueue α × Option α) :=
  if q.head = q.tail then .ok (q, none)
  else do
    let nd ← q.heap.node q.head
    let rest ← q.heap.pull q.head
    .ok (⟨rest.1, rest.2, q.tail⟩, nd.2.v)

def step (s : DummyQueue α × List (Option α)) : Op α → Exec (DummyQueue α × List (Option α))
  | .push x => do
    let q ← s.1.push x
    .ok (q, s.2)
  | .tryPop => do
    let r ← s.1.tryPop
    .ok (r.1, s.2 ++ [r.2])

def run (ops : List (Op α)) : Exec (DummyQueue α × List (Option α)) := ops.foldlM step (init, [])

end DummyQueue

/-! ## First in, first out -/

/-- The values pushed and not yet returned, oldest first, and the answers so far. -/
def fifoStep (s : List α × List (Option α)) : Op α → List α × List (Option α)
  | .push x => (s.1 ++ [x], s.2)
  | .tryPop => (s.1.tail, s.2 ++ [s.1.head?])

def fifo (ops : List (Op α)) : List α × List (Option α) := ops.foldl fifoStep ([], [])

theorem fifo_snoc (ops : List (Op α)) (o : Op α) : fifo (ops ++ [o]) = fifoStep (fifo ops) o := by
  rw [fifo, fifo, List.foldl_append]
  rfl

/-! ## The queue with a dummy node -/

/-- The nodes with a value hold `xs`, and `tail_` is the empty node behind them. -/
structure DummyOk (q : DummyQueue α) (xs : List α) : Prop where
  tidy : q.heap.Tidy
  chain : ∃ l t, Chain q.heap q.head (l ++ [(t, none)]) none ∧ q.tail = some t ∧ l.map Prod.snd = xs.map some

theorem dummy_init : DummyOk (DummyQueue.init : DummyQueue α) [] := by
  refine ⟨Heap.empty_tidy.new none, [], 0, ?_, rfl, rfl⟩
  rw [List.nil_append, chain_cons]
  exact ⟨rfl, none, rfl, chain_nil.mpr rfl⟩

theorem not_mem_of_last {β : Type} {h : Heap β} {p : Option Nat} {l : List (Nat × β)} {t : Nat} {v : β}
    (hc : Chain h p (l ++ [(t, v)]) none) : t ∉ l.map Prod.fst := by
  have hnd := chain_nodup hc
  rw [List.map_append, List.nodup_append] at hnd
  exact fun hm => hnd.2.2 t hm t (by simp) rfl

theorem dummy_push {q : DummyQueue α} {xs : List α} (x : α) (h : DummyOk q xs) :
    ∃ q', q.push x = .ok q' ∧ DummyOk q' (xs ++ [x]) := by
  obtain ⟨ht, l, t, hc, htail, hl⟩ := h
  have htl := not_mem_of_last hc
  obtain ⟨hcl, hnode⟩ := chain_snoc.mp hc
  have hlt := ht.lt hnode
  have hnode' : (q.heap.new none).nodes t = some ⟨none, none⟩ := by rw [Heap.new_other _ _ (by omega), hnode]
  have hrun : q.push x = .ok ⟨(q.heap.new none).put t (some ⟨some x, some q.heap.fresh⟩), q.head, some q.heap.fresh⟩ := by
    have hset : ((q.heap.new none).put t (some ⟨some x, none⟩)).nodes t = some ⟨some x, none⟩ := Heap.put_same _ _ _
    rw [DummyQueue.push, htail, Heap.node_some hnode', ok_bind, link_spec hset, Heap.put_put]
    rfl
  have htidy : (q.heap.new none).Tidy := ht.new none
  refine ⟨_, hrun, htidy.put _ (by rw [Heap.new_fresh]; omega), l ++ [(t, some x)], q.heap.fresh, ?_, rfl, ?_⟩
  · rw [chain_snoc, chain_snoc]
    refine ⟨⟨chain_put (chain_new ht hcl none) _ htl, Heap.put_same _ _ _⟩, ?_⟩
    rw [Heap.put_other _ _ (by omega), Heap.new_same]
  · rw [List.map_append, List.map_append, hl]
    rfl

theorem dummy_pop {q : DummyQueue α} {xs : List α} (h : DummyOk q xs) :
    ∃ q', q.tryPop = .ok (q', xs.head?) ∧ DummyOk q' xs.tail := by
  obtain ⟨ht, l, t, hc, htail, hl⟩ := h
  cases l with
  | nil =>
    obtain rfl : xs = [] := List.map_eq_nil_iff.mp hl.symm
    have hhead : q.head = q.tail := by rw [(chain_cons.mp hc).1, htail]
    exact ⟨q, by rw [DummyQueue.tryPop, if_pos hhead]; rfl, ht, [], t, hc, htail, rfl⟩
  | cons c l =>
    obtain ⟨a, v⟩ := c
    obtain ⟨x, xs, rfl⟩ : ∃ x ys, xs = x :: ys := by
      cases xs with
      | nil => cases hl
      | cons x ys => exact ⟨x, ys, rfl⟩
    obtain ⟨hv, hl⟩ := List.cons.inj hl
    have hv : v = some x := hv
    have hhead : q.head = some a := (chain_cons.mp hc).1
    have hat : a ≠ t := by
      intro e
      exact not_mem_of_last hc (by simp [e])
    rw [hhead] at hc
    obtain ⟨n, hnode, hrest⟩ := chain_pull hc
    have hne : q.head ≠ q.tail := by
      rw [hhead, htail]
      exact fun e => hat (Option.some.inj e)
    refine ⟨⟨q.heap.put a none, n, q.tail⟩, ?_, ht.put none (ht.lt hnode), l, t, hrest, htail, hl⟩
    rw [DummyQueue.tryPop, if_neg hne, hhead, Heap.node_some hnode, ok_bind, pull_spec ht hnode, hv]
    rfl

/-- Every run of the queue with a dummy node answers first in, first out. -/
theorem dummy_fifo (ops : List (Op α)) :
    ∃ q, DummyQueue.run ops = .ok (q, (fifo ops).2) ∧ DummyOk q (fifo ops).1 := by
  induction ops using List.reverseRecOn with
  | nil => exact ⟨_, rfl, dummy_init⟩
  | append_singleton ops o ih =>
    obtain ⟨q, hrun, hq⟩ := ih
    rw [DummyQueue.run, foldlM_snoc, ← DummyQueue.run, hrun, ok_bind, fifo_snoc]
    cases o with
    | push x =>
      obtain ⟨q', hpush, hq'⟩ := dummy_push x hq
      exact ⟨q', by rw [DummyQueue.step, hpush]; rfl, hq'⟩
    | tryPop =>
      obtain ⟨q', hpop, hq'⟩ := dummy_pop hq
      exact ⟨q', by rw [DummyQueue.step, hpop]; rfl, hq'⟩

/-! ## The queue without -/

/-- The nodes from `head_` on hold `xs`. -/
def Holds (q : Queue α) (xs : List α) : Prop := ∃ l, Chain q.heap q.head l none ∧ l.map Prod.snd = xs

/-- `tail_` is null or designates the last node. -/
def TailOk (q : Queue α) : Prop :=
  q.tail = none ∨ ∃ l t x, Chain q.heap q.head (l ++ [(t, x)]) none ∧ q.tail = some t

structure QueueOk (q : Queue α) (xs : List α) : Prop where
  tidy : q.heap.Tidy
  chain : ∃ l, Chain q.heap q.head l none ∧ l.map Prod.snd = xs ∧ q.tail = l.getLast?.map Prod.fst

theorem queueOk_holds {q : Queue α} {xs : List α} (h : QueueOk q xs) : Holds q xs := by
  obtain ⟨-, l, hc, hl, -⟩ := h
  exact ⟨l, hc, hl⟩

theorem queueOk_tail {q : Queue α} {xs : List α} (h : QueueOk q xs) : TailOk q := by
  obtain ⟨-, l, hc, -, htail⟩ := h
  rcases List.eq_nil_or_concat l with rfl | ⟨l, ⟨t, x⟩, rfl⟩
  · exact Or.inl htail
  · rw [List.concat_eq_append] at hc htail
    rw [List.getLast?_append] at htail
    exact Or.inr ⟨l, t, x, hc, htail⟩

theorem simple_init : QueueOk (Queue.init : Queue α) [] := ⟨Heap.empty_tidy, [], chain_nil.mpr rfl, rfl, rfl⟩

theorem simple_push {q : Queue α} {xs : List α} (x : α) (h : QueueOk q xs) :
    ∃ q', q.push x = .ok q' ∧ QueueOk q' (xs ++ [x]) := by
  obtain ⟨ht, l, hc, hl, htail⟩ := h
  have htidy : (q.heap.new x).Tidy := ht.new x
  rcases List.eq_nil_or_concat l with rfl | ⟨l, ⟨t, y⟩, rfl⟩
  · obtain rfl : [] = xs := hl
    have hhead : q.head = none := chain_nil.mp hc
    have htail : q.tail = none := htail
    have hrun : q.push x = .ok ⟨q.heap.new x, some q.heap.fresh, some q.heap.fresh⟩ := by
      rw [Queue.push, htail, hhead]
      rfl
    refine ⟨_, hrun, htidy, [(q.heap.fresh, x)], ?_, rfl, rfl⟩
    rw [chain_cons]
    exact ⟨rfl, none, Heap.new_same _ _, chain_nil.mpr rfl⟩
  · rw [List.concat_eq_append] at hc hl htail
    have htail : q.tail = some t := by rw [htail, List.getLast?_append]; rfl
    have htl := not_mem_of_last hc
    obtain ⟨hcl, hnode⟩ := chain_snoc.mp hc
    have hlt := ht.lt hnode
    have hnode' : (q.heap.new x).nodes t = some ⟨y, none⟩ := by rw [Heap.new_other _ _ (by omega), hnode]
    have hrun : q.push x = .ok ⟨(q.heap.new x).put t (some ⟨y, some q.heap.fresh⟩), q.head, some q.heap.fresh⟩ := by
      rw [Queue.push, htail]
      dsimp only
      rw [link_spec hnode']
      rfl
    refine ⟨_, hrun, htidy.put _ (by rw [Heap.new_fresh]; omega), l ++ [(t, y)] ++ [(q.heap.fresh, x)], ?_, ?_, ?_⟩
    · rw [chain_snoc, chain_snoc]
      refine ⟨⟨chain_put (chain_new ht hcl x) _ htl, Heap.put_same _ _ _⟩, ?_⟩
      rw [Heap.put_other _ _ (by omega), Heap.new_same]
    · rw [List.map_append, hl]
      rfl
    · rw [List.getLast?_append]
      rfl

/-- A pop takes the first node out of the chain; `tail_` stays where it was. -/
theorem simple_pop {q : Queue α} {x : α} {xs : List α} (h : QueueOk q (x :: xs)) :
    ∃ a l n, q.tryPop = .ok (⟨q.heap.put a none, n, q.tail⟩, some x) ∧ (q.heap.put a none).Tidy ∧
      Chain (q.heap.put a none) n l none ∧ l.map Prod.snd = xs ∧ q.tail = ((a, x) :: l).getLast?.map Prod.fst := by
  obtain ⟨ht, l, hc, hl, htail⟩ := h
  obtain ⟨⟨a, y⟩, l, rfl⟩ : ∃ c l', l = c :: l' := by
    cases l with
    | nil => cases hl
    | cons c l => exact ⟨c, l, rfl⟩
  obtain ⟨hx, hl'⟩ := List.cons.inj hl
  obtain rfl : y = x := hx
  have hhead : q.head = some a := (chain_cons.mp hc).1
  rw [hhead] at hc
  obtain ⟨n, hnode, hrest⟩ := chain_pull hc
  refine ⟨a, l, n, ?_, ht.put none (ht.lt hnode), hrest, hl', htail⟩
  rw [Queue.tryPop, hhead]
  dsimp only
  rw [Heap.node_some hnode, ok_bind, pull_spec ht hnode]
  rfl

theorem simple_pop_empty {q : Queue α} (h : QueueOk q []) : q.tryPop = .ok (q, none) := by
  obtain ⟨-, l, hc, hl, -⟩ := h
  obtain rfl : l = [] := List.map_eq_nil_iff.mp hl
  rw [Queue.tryPop, chain_nil.mp hc]

theorem simple_pop_more {q : Queue α} {x : α} {xs : List α} (h : QueueOk q (x :: xs)) (hne : xs ≠ []) :
    ∃ q', q.tryPop = .ok (q', some x) ∧ QueueOk q' xs := by
  obtain ⟨a, l, n, hrun, ht, hc, hl, htail⟩ := simple_pop h
  refine ⟨_, hrun, ht, l, hc, hl, ?_⟩
  obtain ⟨c, l, rfl⟩ : ∃ c l', l = c :: l' := by
    cases l with
    | nil => exact absurd hl.symm hne
    | cons c l => exact ⟨c, l, rfl⟩
  rw [List.getLast?_cons_cons] at htail
  exact htail

/-- The pop of the only value leaves `tail_` at a destroyed node. -/
theorem simple_pop_last {q : Queue α} {x : α} (h : QueueOk q [x]) :
    ∃ q', q.tryPop = .ok (q', some x) ∧ ¬ TailOk q' := by
  obtain ⟨a, l, n, hrun, ht, hc, hl, htail⟩ := simple_pop h
  obtain rfl : l = [] := List.map_eq_nil_iff.mp hl
  have htail : q.tail = some a := htail
  refine ⟨_, hrun, ?_⟩
  intro hor
  rcases hor with hnull | ⟨l, t, y, hlast, ht'⟩
  · rw [htail] at hnull
    cases hnull
  · obtain rfl : a = t := Option.some.inj (htail.symm.trans ht')
    have hnode := (chain_snoc.mp hlast).2
    rw [Heap.put_same] at hnode
    cases hnode

/-- What the queue is for, along a run: in every state reached the answers are those of the queue
    with a dummy node and first in, first out, the rest is still there, and `tail_` is at its end. -/
def Meets (ops : List (Op α)) : Prop :=
  ∀ pre, pre <+: ops → ∃ q d, Queue.run pre = .ok (q, (fifo pre).2) ∧ DummyQueue.run pre = .ok (d, (fifo pre).2) ∧
    Holds q (fifo pre).1 ∧ TailOk q

/-- No `try_pop` is made on exactly one value. -/
def NoLastPop (ops : List (Op α)) : Prop := ∀ pre, pre ++ [.tryPop] <+: ops → (fifo pre).1.length ≠ 1

theorem noLastPop_snoc {ops : List (Op α)} {o : Op α} :
    NoLastPop (ops ++ [o]) ↔ NoLastPop ops ∧ (o = .tryPop → (fifo ops).1.length ≠ 1) := by
  constructor
  · intro h
    refine ⟨fun pre hpre => h pre (hpre.trans (List.prefix_append _ _)), ?_⟩
    intro e
    subst e
    exact h ops (List.prefix_refl _)
  · intro hx pre hpre
    obtain ⟨h, hlast⟩ := hx
    rcases List.prefix_concat_iff.mp hpre with heq | hpre
    · obtain ⟨rfl, ho⟩ := List.append_inj' heq rfl
      exact hlast (List.cons.inj ho).1.symm
    · exact h pre hpre

theorem simple_run {ops : List (Op α)} (h : NoLastPop ops) :
    ∃ q, Queue.run ops = .ok (q, (fifo ops).2) ∧ QueueOk q (fifo ops).1 := by
  induction ops using List.reverseRecOn with
  | nil => exact ⟨_, rfl, simple_init⟩
  | append_singleton ops o ih =>
    obtain ⟨hops, hlast⟩ := noLastPop_snoc.mp h
    obtain ⟨q, hrun, hq⟩ := ih hops
    rw [Queue.run, foldlM_snoc, ← Queue.run, hrun, ok_bind, fifo_snoc]
    cases o with
    | push x =>
      obtain ⟨q', hpush, hq'⟩ := simple_push x hq
      exact ⟨q', by rw [Queue.step, hpush]; rfl, hq'⟩
    | tryPop =>
      have hone := hlast rfl
      cases hxs : (fifo ops).1 with
      | nil =>
        rw [hxs] at hq
        refine ⟨q, ?_, ?_⟩
        · rw [Queue.step, simple_pop_empty hq, fifoStep, hxs]
          rfl
        · rw [fifoStep, hxs]
          exact hq
      | cons x xs =>
        rw [hxs] at hq hone
        have hne : xs ≠ [] := by
          intro e
          subst e
          exact hone rfl
        obtain ⟨q', hpop, hq'⟩ := simple_pop_more hq hne
        refine ⟨q', ?_, ?_⟩
        · rw [Queue.step, hpop, fifoStep, hxs]
          rfl
        · rw [fifoStep, hxs]
          exact hq'

theorem meets_init {ops : List (Op α)} {o : Op α} (h : Meets (ops ++ [o])) : Meets ops :=
  fun pre hpre => h pre (hpre.trans (List.prefix_append _ _))

/-- The queue answers a run first in, first out, with `tail_` null or at the last node in every state,
    exactly when no `try_pop` of the run takes the only value. -/
theorem simple_fifo_iff (ops : List (Op α)) : Meets ops ↔ NoLastPop ops := by
  constructor
  · intro h
    induction ops using List.reverseRecOn with
    | nil =>
      intro pre hpre
      exact absurd (List.prefix_nil.mp hpre) (by simp)
    | append_singleton ops o ih =>
      have hops := ih (meets_init h)
      refine noLastPop_snoc.mpr ⟨hops, ?_⟩
      intro e hone
      subst e
      obtain ⟨q, hrun, hq⟩ := simple_run hops
      obtain ⟨x, hx⟩ := List.length_eq_one_iff.mp hone
      rw [hx] at hq
      obtain ⟨q', hpop, hbad⟩ := simple_pop_last hq
      obtain ⟨q'', d, hrun', -, -, htail⟩ := h _ (List.prefix_refl _)
      rw [Queue.run, foldlM_snoc, ← Queue.run, hrun, ok_bind, Queue.step, hpop, ok_bind] at hrun'
      obtain rfl : q' = q'' := (Prod.mk.inj (Except.ok.inj hrun')).1
      exact hbad htail
  · intro h pre hpre
    have hpre' : NoLastPop pre := fun p hp => h p (hp.trans hpre)
    obtain ⟨q, hrun, hq⟩ := simple_run hpre'
    obtain ⟨d, hdummy, -⟩ := dummy_fifo pre
    exact ⟨q, d, hrun, hdummy, queueOk_holds hq, queueOk_tail hq⟩

/-- Empty the queue and push again: the second push writes to the destroyed node. -/
theorem push_after_empty :
    Queue.run [.push 1, .tryPop, .push 2] = .error .ub ∧ ¬ Meets [.push 1, .tryPop, .push 2] ∧
      (DummyQueue.run [.push 1, .tryPop, .push 2, .tryPop]).map Prod.snd = .ok [some 1, some 2] := by
  refine ⟨rfl, ?_, rfl⟩
  intro h
  obtain ⟨q, d, hrun, -⟩ := h _ (List.prefix_refl _)
  cases hrun

end Wtfsc.SimpleQueue
