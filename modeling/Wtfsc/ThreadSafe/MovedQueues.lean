/-
  Wtfsc.ThreadSafe.MovedQueues — any number of `DummyQueue`s of src/thread-safe/queue.cpp in one
  program, made, moved from and destroyed.

  The moves are the defaulted ones: `head_` hands its list over and is null afterwards, and
  `tail_` is copied, so in the queue moved from it designates a node that is now another's. Such
  a queue can be assigned to and destroyed. `values` is a program without nodes: each queue is a
  list, or has been moved from.
  - `queues_are_fifos`: as long as no queue is used that has been moved from, the answers are those
    of the lists, each node belongs to exactly one queue, and nothing is left of the others.
  - a `try_pop` on a queue that has been moved from follows the null pointer (`Program.Is`).
-/

import Wtfsc.ThreadSafe.SimpleQueue

namespace Wtfsc.SimpleQueue.Moved

open Function
open Wtfsc.Cpp
open Wtfsc.Owned

variable {α : Type}

structure Members where
  head : Option Nat
  tail : Option Nat
  deriving DecidableEq, Repr

structure Program (α : Type) where
  heap : Heap (Option α)
  queues : Nat → Option Members
  /-- What the `try_pop`s have returned. -/
  answers : List (Option α)

namespace Program

def init : Program α := ⟨.empty, fun _ => none, []⟩

def view (p : Program α) (m : Members) : DummyQueue α := ⟨p.heap, m.head, m.tail⟩

def keep (p : Program α) (i : Nat) (q : DummyQueue α) (answers : List (Option α)) : Program α :=
  ⟨q.heap, update p.queues i (some ⟨q.head, q.tail⟩), answers⟩

end Program

inductive Act (α : Type) where
  /-- `DummyQueue()` -/
  | construct (i : Nat)
  | call (i : Nat) (o : Op α)
  /-- `DummyQueue(DummyQueue&&)` -/
  | moveConstruct (i j : Nat)
  /-- `operator=(DummyQueue&&)` -/
  | moveAssign (i j : Nat)
  /-- `~DummyQueue()` -/
  | destroy (i : Nat)
  deriving DecidableEq, Repr

def Program.step (p : Program α) : Act α → Exec (Program α)
  | .construct i => .ok { p with
      heap := p.heap.new none
      queues := update p.queues i (some ⟨some p.heap.fresh, some p.heap.fresh⟩) }
  | .call i o => do
    let m ← deref (p.queues i)
    let r ← DummyQueue.step (p.view m, p.answers) o
    .ok (p.keep i r.1 r.2)
  | .moveConstruct i j => do
    let other ← deref (p.queues j)
    .ok { p with queues := update (update p.queues j (some ⟨none, other.tail⟩)) i (some other) }
  | .moveAssign i j => do
    let other ← deref (p.queues j)
    -- `head_.reset(other.head_.release())`
    let released := update p.queues j (some ⟨none, other.tail⟩)
    let m ← deref (released i)
    let heap ← Heap.destroy p.heap.fresh p.heap m.head
    .ok { p with heap := heap, queues := update released i (some other) }
  | .destroy i => do
    let m ← deref (p.queues i)
    let heap ← Heap.destroy p.heap.fresh p.heap m.head
    .ok { p with heap := heap, queues := update p.queues i none }

def Program.run (acts : List (Act α)) : Exec (Program α) := acts.foldlM Program.step .init

/-! ## Lists -/

/-- A queue as its users see it. -/
inductive Value (α : Type) where
  | holds (xs : List α)
  | moved
  deriving DecidableEq, Repr

def valued (s : (Nat → Option (Value α)) × List (Option α)) : Act α → (Nat → Option (Value α)) × List (Option α)
  | .construct i => (update s.1 i (some (.holds [])), s.2)
  | .call i o =>
    match s.1 i with
    | some (.holds xs) =>
      let r := fifoStep (xs, s.2) o
      (update s.1 i (some (.holds r.1)), r.2)
    | _ => s
  | .moveConstruct i j | .moveAssign i j => (update (update s.1 j (some .moved)) i (s.1 j), s.2)
  | .destroy i => (update s.1 i none, s.2)

/-- The queues and the answers after a run. -/
def values (acts : List (Act α)) : (Nat → Option (Value α)) × List (Option α) := acts.foldl valued (fun _ => none, [])

/-- A constructor has a new name, other members a queue, and a call one that has not been moved from. -/
def Allowed (v : Nat → Option (Value α)) : Act α → Prop
  | .construct i => v i = none
  | .call i _ => ∃ xs, v i = some (.holds xs)
  | .moveConstruct i j => v i = none ∧ v j ≠ none
  | .moveAssign i j => v i ≠ none ∧ v j ≠ none
  | .destroy i => v i ≠ none

inductive Legal : List (Act α) → Prop
  | nil : Legal []
  | snoc {acts : List (Act α)} (a : Act α) : Legal acts → Allowed (values acts).1 a → Legal (acts ++ [a])

theorem values_snoc (acts : List (Act α)) (a : Act α) : values (acts ++ [a]) = valued (values acts) a := by
  rw [values, values, List.foldl_append]
  rfl

/-- The node is one of queue `i`'s. -/
def Program.Owns (p : Program α) (i a : Nat) : Prop :=
  ∃ m l, p.queues i = some m ∧ Chain p.heap m.head l none ∧ a ∈ l.map Prod.fst

def Program.Is (p : Program α) (i : Nat) : Option (Value α) → Prop
  | none => p.queues i = none
  | some .moved => (∃ t, p.queues i = some ⟨none, some t⟩) ∧ p.step (.call i .tryPop) = .error .ub
  | some (.holds xs) => ∃ m, p.queues i = some m ∧ DummyOk (p.view m) xs

/-! ## The chains of the queues -/

def Program.roots (p : Program α) (i : Nat) : Option Nat := (p.queues i).bind Members.head

/-- A queue with the chain `l`. -/
def Stands (m : Option Members) (l : List (Nat × Option α)) : Option (Value α) → Prop
  | none => m = none
  | some .moved => ∃ t, m = some ⟨none, some t⟩
  | some (.holds xs) => ∃ hd l' t, m = some ⟨hd, some t⟩ ∧ l = l' ++ [(t, none)] ∧ l'.map Prod.snd = xs.map some

structure Inv (p : Program α) (v : Nat → Option (Value α)) (ls : Nat → List (Nat × Option α)) : Prop where
  tidy : p.heap.Tidy
  chains : Chains p.heap p.roots ls
  stands : ∀ i, Stands (p.queues i) (ls i) (v i)

variable {p p' : Program α} {v : Nat → Option (Value α)} {ls : Nat → List (Nat × Option α)} {i j : Nat}
  {m : Members} {o : Option Members} {c : List (Nat × Option α)} {w : Option (Value α)} {h' : Heap (Option α)}

theorem inv_init : Inv (.init : Program α) (fun _ => none) fun _ => [] :=
  ⟨Heap.empty_tidy, chains_empty, fun _ => rfl⟩

theorem roots_update {answers : List (Option α)} :
    Program.roots ⟨h', update p.queues i o, answers⟩ = update p.roots i (o.bind Members.head) := by
  funext k
  by_cases e : k = i
  · subst e
    simp [Program.roots]
  · simp [Program.roots, update_of_ne e]

/-- A queue that owns nothing, or is none. -/
theorem Inv.nothing (h : Inv p v ls) (hroot : p.roots i = none) : ls i = [] := by
  have hc := h.chains.each i
  rw [hroot] at hc
  cases hl : ls i with
  | nil => rfl
  | cons c l =>
    rw [hl] at hc
    cases (chain_cons.mp hc).1

theorem Inv.queue (h : Inv p v ls) (hv : v i ≠ none) : ∃ hd t, p.queues i = some ⟨hd, some t⟩ := by
  have hst := h.stands i
  cases hi : v i with
  | none => exact absurd hi hv
  | some val =>
    rw [hi] at hst
    cases val with
    | moved =>
      obtain ⟨t, ht⟩ := hst
      exact ⟨none, t, ht⟩
    | holds xs =>
      obtain ⟨hd, l, t, ht, -⟩ := hst
      exact ⟨hd, t, ht⟩

/-- Only queue `i` and its chain change. -/
theorem Inv.change (h : Inv p v ls) {answers : List (Option α)} (ht : h'.Tidy) (hnew : Chain h' (o.bind Members.head) c none)
    (hfrom : ∀ a ∈ c.map Prod.fst, a ∈ (ls i).map Prod.fst ∨ p.heap.nodes a = none)
    (hgone : ∀ a ∈ (ls i).map Prod.fst, a ∉ c.map Prod.fst → h'.nodes a = none)
    (hsame : ∀ a, a ∉ (ls i).map Prod.fst → a ∉ c.map Prod.fst → h'.nodes a = p.heap.nodes a)
    (hst : Stands o c w) : Inv ⟨h', update p.queues i o, answers⟩ (update v i w) (update ls i c) := by
  refine ⟨ht, ?_, fun k => ?_⟩
  · rw [roots_update]
    exact h.chains.change hnew hfrom hgone hsame
  · by_cases e : k = i
    · subst e
      simpa using hst
    · simpa [update_of_ne e] using h.stands k

/-- Queue `i`, which owns nothing, takes over from queue `j`. -/
theorem Inv.pass (h : Inv p v ls) (hij : i ≠ j) (hroot : p.roots i = none) (hv : v j ≠ none) {t : Option Nat}
    (hj : p.queues j = some m) (ht : m.tail = t) :
    Inv { p with queues := update (update p.queues j (some ⟨none, t⟩)) i (some m) }
      (update (update v j (some .moved)) i (v j)) (update (update ls i (ls j)) j []) := by
  obtain ⟨hd, t', hq⟩ := h.queue hv
  obtain rfl : m = ⟨hd, some t'⟩ := Option.some.inj (hj.symm.trans hq)
  subst ht
  refine ⟨h.tidy, ?_, fun k => ?_⟩
  · have hroots : Program.roots { p with queues := update (update p.queues j (some ⟨none, some t'⟩)) i (some ⟨hd, some t'⟩) } =
        update (update p.roots i (p.roots j)) j none := by
      funext k
      by_cases ei : k = i
      · subst ei
        simp [Program.roots, hij, hj]
      · by_cases ej : k = j
        · subst ej
          simp [Program.roots, ei]
        · simp [Program.roots, ei, ej]
    rw [hroots]
    exact h.chains.pass hij (h.nothing hroot)
  · by_cases ei : k = i
    · subst ei
      have hst := h.stands j
      rw [hj] at hst
      simpa [hij] using hst
    · by_cases ej : k = j
      · subst ej
        have hst : Stands (some ⟨none, some t'⟩) ([] : List (Nat × Option α)) (some .moved) := ⟨t', rfl⟩
        simpa [ei] using hst
      · simpa [ei, ej] using h.stands k

/-! ## Steps -/

theorem Inv.construct (h : Inv p v ls) (hi : v i = none) :
    ∃ p' ls', p.step (.construct i) = .ok p' ∧ p'.answers = p.answers ∧ Inv p' (update v i (some (.holds []))) ls' := by
  have hroot : p.roots i = none := by
    have hst := h.stands i
    rw [hi] at hst
    rw [Program.roots, show p.queues i = none from hst]
    rfl
  have hls := h.nothing hroot
  have hfresh : p.heap.nodes p.heap.fresh = none := h.tidy _ (Nat.le_refl _)
  refine ⟨_, _, rfl, rfl, h.change (c := [(p.heap.fresh, none)]) (h.tidy.new none) ?_ ?_ ?_ ?_ ⟨_, [], _, rfl, rfl, rfl⟩⟩
  · exact chain_cons.mpr ⟨rfl, none, Heap.new_same _ _, chain_nil.mpr rfl⟩
  · intro a ha
    obtain rfl := List.mem_singleton.mp ha
    exact Or.inr hfresh
  · intro a ha
    rw [hls] at ha
    cases ha
  · intro a _ ha
    exact Heap.new_other _ _ fun e => ha (List.mem_singleton.mpr e)

theorem push_at {q : DummyQueue α} {t : Nat} (x : α) (ht : q.heap.Tidy) (htail : q.tail = some t)
    (hnode : q.heap.nodes t = some ⟨none, none⟩) :
    q.push x = .ok ⟨(q.heap.new none).put t (some ⟨some x, some q.heap.fresh⟩), q.head, some q.heap.fresh⟩ := by
  have hlt := ht.lt hnode
  have hnode' : (q.heap.new none).nodes t = some ⟨none, none⟩ := by rw [Heap.new_other _ _ (by omega), hnode]
  have hset : ((q.heap.new none).put t (some ⟨some x, none⟩)).nodes t = some ⟨some x, none⟩ := Heap.put_same _ _ _
  rw [DummyQueue.push, htail, Heap.node_some hnode', ok_bind, link_spec hset, Heap.put_put]
  rfl

theorem Inv.push {xs : List α} (h : Inv p v ls) (hv : v i = some (.holds xs)) (x : α) :
    ∃ p' ls', p.step (.call i (.push x)) = .ok p' ∧ p'.answers = p.answers ∧
      Inv p' (update v i (some (.holds (xs ++ [x])))) ls' := by
  have hst := h.stands i
  rw [hv] at hst
  obtain ⟨hd, l, t, hm, hl, hvals⟩ := hst
  have hc : Chain p.heap hd (l ++ [(t, none)]) none := by
    have hc := h.chains.each i
    rwa [hl, Program.roots, hm] at hc
  have htl := not_mem_of_last hc
  obtain ⟨hcl, hnode⟩ := chain_snoc.mp hc
  have hlt := h.tidy.lt hnode
  have hrun : p.step (.call i (.push x)) = .ok (p.keep i ⟨(p.heap.new none).put t (some ⟨some x, some p.heap.fresh⟩), hd,
      some p.heap.fresh⟩ p.answers) := by
    have hpush := push_at (q := p.view ⟨hd, some t⟩) x h.tidy rfl hnode
    rw [Program.step, hm, deref_some, ok_bind, DummyQueue.step, hpush]
    rfl
  have htidy : (p.heap.new none).Tidy := h.tidy.new none
  refine ⟨_, _, hrun, rfl, h.change (c := l ++ [(t, some x)] ++ [(p.heap.fresh, none)]) ?_ ?_ ?_ ?_ ?_ ?_⟩
  · exact htidy.put _ (by rw [Heap.new_fresh]; omega)
  · rw [chain_snoc, chain_snoc]
    refine ⟨⟨chain_put (chain_new h.tidy hcl none) _ htl, Heap.put_same _ _ _⟩, ?_⟩
    rw [Heap.put_other _ _ (by omega), Heap.new_same]
  · intro a ha
    rw [hl]
    simp only [List.map_append, List.map_cons, List.map_nil, List.mem_append, List.mem_singleton] at ha ⊢
    rcases ha with ha | rfl
    · exact Or.inl ha
    · exact Or.inr (h.tidy _ (Nat.le_refl _))
  · intro a ha hnot
    rw [hl] at ha
    refine absurd ?_ hnot
    rw [List.map_append] at ha ⊢
    rw [List.map_append]
    exact List.mem_append_left _ ha
  · intro a _ hnot
    simp only [List.map_append, List.map_cons, List.map_nil, List.mem_append, List.mem_singleton, not_or] at hnot
    exact (Heap.put_other _ _ hnot.1.2).trans (Heap.new_other _ _ hnot.2)
  · refine ⟨hd, l ++ [(t, some x)], p.heap.fresh, rfl, rfl, ?_⟩
    rw [List.map_append, List.map_append, hvals]
    rfl

theorem Inv.tryPop {xs : List α} (h : Inv p v ls) (hv : v i = some (.holds xs)) :
    ∃ p' ls', p.step (.call i .tryPop) = .ok p' ∧ p'.answers = p.answers ++ [xs.head?] ∧
      Inv p' (update v i (some (.holds xs.tail))) ls' := by
  have hst := h.stands i
  rw [hv] at hst
  obtain ⟨hd, l, t, hm, hl, hvals⟩ := hst
  have hc : Chain p.heap hd (l ++ [(t, none)]) none := by
    have hc := h.chains.each i
    rwa [hl, Program.roots, hm] at hc
  have hfront : ∀ {q : DummyQueue α} {x : Option α}, (p.view ⟨hd, some t⟩).tryPop = .ok (q, x) →
      p.step (.call i .tryPop) = .ok (p.keep i q (p.answers ++ [x])) := by
    intro q x hpop
    rw [Program.step, hm, deref_some, ok_bind, DummyQueue.step, hpop]
    rfl
  cases l with
  | nil =>
    obtain rfl : xs = [] := List.map_eq_nil_iff.mp hvals.symm
    have hhead : hd = some t := (chain_cons.mp hc).1
    have hpop : (p.view ⟨hd, some t⟩).tryPop = .ok (p.view ⟨hd, some t⟩, none) := if_pos hhead
    exact ⟨_, _, hfront hpop, rfl, h.change (c := ls i) h.tidy (hl ▸ hc) (fun a ha => Or.inl ha)
      (fun a ha hnot => absurd ha hnot) (fun _ _ _ => rfl) ⟨hd, [], t, rfl, hl, rfl⟩⟩
  | cons c l =>
    obtain ⟨a, y⟩ := c
    obtain ⟨x, xs, rfl⟩ : ∃ x ys, xs = x :: ys := by
      cases xs with
      | nil => cases hvals
      | cons x ys => exact ⟨x, ys, rfl⟩
    obtain ⟨hy, htail⟩ := List.cons.inj hvals
    obtain rfl : y = some x := hy
    obtain rfl : hd = some a := (chain_cons.mp hc).1
    have hat : a ≠ t := by
      intro he
      subst he
      exact not_mem_of_last hc (by simp)
    have hnot : a ∉ (l ++ [(t, (none : Option α))]).map Prod.fst := by
      have hnd := chain_nodup hc
      rw [List.cons_append, List.map_cons, List.nodup_cons] at hnd
      exact hnd.1
    obtain ⟨n, hnode, hrest⟩ := chain_pull hc
    have hrest : Chain (p.heap.put a none) ((some (Members.mk n (some t))).bind Members.head) (l ++ [(t, none)]) none := hrest
    have hpop : (p.view ⟨some a, some t⟩).tryPop = .ok (⟨p.heap.put a none, n, some t⟩, some x) := by
      have hne : (p.view ⟨some a, some t⟩).head ≠ (p.view ⟨some a, some t⟩).tail := fun e => hat (Option.some.inj e)
      rw [DummyQueue.tryPop, if_neg hne]
      show (p.heap.node (some a) >>= _) = _
      rw [Heap.node_some hnode, ok_bind]
      show (p.heap.pull (some a) >>= _) = _
      rw [pull_spec h.tidy hnode]
      rfl
    refine ⟨_, _, hfront hpop, rfl, h.change (c := l ++ [(t, none)]) (h.tidy.put none (h.tidy.lt hnode)) hrest ?_ ?_ ?_
      ⟨n, l, t, rfl, rfl, htail⟩⟩
    · intro b hb
      rw [hl]
      exact Or.inl (List.mem_cons_of_mem _ hb)
    · intro b hb hgone
      rw [hl] at hb
      obtain rfl := (List.mem_cons.mp hb).resolve_right hgone
      exact Heap.put_same _ _ _
    · intro b hb _
      rw [hl] at hb
      exact Heap.put_other _ _ fun e => hb (List.mem_cons.mpr (Or.inl e))

theorem Inv.call {xs : List α} (h : Inv p v ls) (hv : v i = some (.holds xs)) (o : Op α) :
    ∃ p' ls', p.step (.call i o) = .ok p' ∧ p'.answers = (fifoStep (xs, p.answers) o).2 ∧
      Inv p' (update v i (some (.holds (fifoStep (xs, p.answers) o).1))) ls' := by
  cases o with
  | push x => exact h.push hv x
  | tryPop => exact h.tryPop hv

/-- The nodes of queue `i` are destroyed, and it is no queue any more or owns nothing. -/
theorem Inv.drop (h : Inv p v ls) (hi : p.queues i = some m) (ho : o.bind Members.head = none) (hst : Stands o [] w) :
    ∃ h', Heap.destroy p.heap.fresh p.heap m.head = .ok h' ∧
      Inv { p with heap := h', queues := update p.queues i o } (update v i w) (update ls i []) := by
  have hc : Chain p.heap m.head (ls i) none := by
    have hc := h.chains.each i
    rwa [Program.roots, hi] at hc
  obtain ⟨h', hrun, hfresh, hgone, hsame⟩ := destroy_spec hc (chain_length h.tidy hc)
  refine ⟨h', hrun, h.change ?_ ?_ ?_ ?_ ?_ hst⟩
  · intro a ha
    rw [hfresh] at ha
    by_cases hmem : a ∈ (ls i).map Prod.fst
    · exact hgone a hmem
    · rw [hsame a hmem]
      exact h.tidy a ha
  · exact chain_nil.mpr ho
  · intro a ha
    cases ha
  · exact fun a ha _ => hgone a ha
  · exact fun a ha _ => hsame a ha

theorem Inv.destroy (h : Inv p v ls) (hi : v i ≠ none) :
    ∃ p' ls', p.step (.destroy i) = .ok p' ∧ p'.answers = p.answers ∧ Inv p' (update v i none) ls' := by
  obtain ⟨hd, t, hm⟩ := h.queue hi
  obtain ⟨h', hrun, hinv⟩ := h.drop (o := none) (w := none) hm rfl rfl
  refine ⟨{ p with heap := h', queues := update p.queues i none }, _, ?_, rfl, hinv⟩
  rw [Program.step, hm, deref_some, ok_bind]
  show (Heap.destroy p.heap.fresh p.heap hd >>= _) = _
  rw [hrun]
  rfl

theorem Inv.moveConstruct (h : Inv p v ls) (hi : v i = none) (hj : v j ≠ none) :
    ∃ p' ls', p.step (.moveConstruct i j) = .ok p' ∧ p'.answers = p.answers ∧
      Inv p' (update (update v j (some .moved)) i (v j)) ls' := by
  have hij : i ≠ j := by
    intro e
    subst e
    exact hj hi
  obtain ⟨hd, t, hm⟩ := h.queue hj
  have hroot : p.roots i = none := by
    have hst := h.stands i
    rw [hi] at hst
    rw [Program.roots, show p.queues i = none from hst]
    rfl
  refine ⟨_, _, ?_, ?_, h.pass hij hroot hj hm rfl⟩
  · rw [Program.step, hm]
    rfl
  · rfl

theorem Inv.moveAssign (h : Inv p v ls) (hi : v i ≠ none) (hj : v j ≠ none) :
    ∃ p' ls', p.step (.moveAssign i j) = .ok p' ∧ p'.answers = p.answers ∧
      Inv p' (update (update v j (some .moved)) i (v j)) ls' := by
  obtain ⟨hd, t, hm⟩ := h.queue hj
  by_cases hij : i = j
  · subst hij
    -- `head_` is null when it is reset, so nothing is destroyed
    refine ⟨p, ls, ?_, rfl, ?_⟩
    · rw [Program.step, hm, deref_some, ok_bind]
      show (deref (update p.queues i (some ⟨none, some t⟩) i) >>= _) = _
      rw [update_self, deref_some, ok_bind]
      show (Heap.destroy p.heap.fresh p.heap none >>= _) = _
      rw [show Heap.destroy p.heap.fresh p.heap none = .ok p.heap by cases p.heap.fresh <;> rfl, ok_bind, update_idem, ← hm,
        update_eq_self]
    · rw [update_idem, update_eq_self]
      exact h
  · obtain ⟨hd', t', hm'⟩ := h.queue hi
    obtain ⟨h', hrun, hmid⟩ := h.drop (o := some ⟨none, some t'⟩) (w := some .moved) hm' rfl ⟨t', rfl⟩
    have hne : j ≠ i := Ne.symm hij
    have hroot : Program.roots { p with heap := h', queues := update p.queues i (some ⟨none, some t'⟩) } i = none := by
      simp [Program.roots]
    have hinv := hmid.pass hij hroot (by rwa [update_of_ne hne]) ((update_of_ne hne _ _).trans hm) rfl
    have hv : update (update (update v i (some .moved)) j (some .moved)) i (v j) =
        update (update v j (some .moved)) i (v j) := by
      rw [update_comm hij, update_idem]
    have hq : update (update (update p.queues i (some ⟨none, some t'⟩)) j (some ⟨none, some t⟩)) i (some ⟨hd, some t⟩) =
        update (update p.queues j (some ⟨none, some t⟩)) i (some ⟨hd, some t⟩) := by
      rw [update_comm hij, update_idem]
    dsimp only at hinv
    rw [update_of_ne hne, hv, hq] at hinv
    refine ⟨_, _, ?_, ?_, hinv⟩
    · rw [Program.step, hm, deref_some, ok_bind]
      show (deref (update p.queues j (some ⟨none, some t⟩) i) >>= _) = _
      rw [update_of_ne hij, hm', deref_some, ok_bind]
      show (Heap.destroy p.heap.fresh p.heap hd' >>= _) = _
      rw [hrun]
      rfl
    · rfl

theorem step_inv {a : Act α} (h : Inv p v ls) (ha : Allowed v a) :
    ∃ p' ls', p.step a = .ok p' ∧ p'.answers = (valued (v, p.answers) a).2 ∧ Inv p' (valued (v, p.answers) a).1 ls' := by
  cases a with
  | construct i => exact h.construct ha
  | call i o =>
    obtain ⟨xs, hv⟩ := ha
    simp only [valued, hv]
    exact h.call hv o
  | moveConstruct i j => exact h.moveConstruct ha.1 ha.2
  | moveAssign i j => exact h.moveAssign ha.1 ha.2
  | destroy i => exact h.destroy ha

/-! ## Every run -/

theorem legal_run {acts : List (Act α)} (h : Legal acts) :
    ∃ p ls, Program.run acts = .ok p ∧ p.answers = (values acts).2 ∧ Inv p (values acts).1 ls := by
  induction h with
  | nil => exact ⟨_, _, rfl, rfl, inv_init⟩
  | snoc a _ ha ih =>
    obtain ⟨p, ls, hrun, hans, hinv⟩ := ih
    obtain ⟨p', ls', hstep, hans', hinv'⟩ := step_inv hinv ha
    rw [hans] at hans' hinv'
    refine ⟨p', ls', ?_, ?_, ?_⟩
    · rw [Program.run, foldlM_snoc, ← Program.run, hrun]
      exact hstep
    · rw [values_snoc]
      exact hans'
    · rw [values_snoc]
      exact hinv'

theorem Inv.is (h : Inv p v ls) (i : Nat) : p.Is i (v i) := by
  have hst := h.stands i
  cases hv : v i with
  | none =>
    rw [hv] at hst
    exact hst
  | some val =>
    rw [hv] at hst
    cases val with
    | moved =>
      obtain ⟨t, hm⟩ := hst
      refine ⟨⟨t, hm⟩, ?_⟩
      rw [Program.step, hm]
      rfl
    | holds xs =>
      obtain ⟨hd, l, t, hm, hl, hvals⟩ := hst
      have hc := h.chains.each i
      rw [hl, Program.roots, hm] at hc
      exact ⟨_, hm, h.tidy, l, t, hc, rfl, hvals⟩

theorem Inv.owns (h : Inv p v ls) {a : Nat} : p.Owns i a ↔ a ∈ (ls i).map Prod.fst := by
  have hc := h.chains.each i
  constructor
  · intro hx
    obtain ⟨m, l, hm, hl, ha⟩ := hx
    rw [Program.roots, hm] at hc
    have hpath : l.map Prod.fst = (ls i).map Prod.fst := Links.path_det hl.1 hc.1
    rwa [← hpath]
  · intro ha
    cases hm : p.queues i with
    | none =>
      rw [h.nothing (by rw [Program.roots, hm]; rfl)] at ha
      cases ha
    | some m =>
      rw [Program.roots, hm] at hc
      exact ⟨m, ls i, hm, hc, ha⟩

/-- As long as no queue is used that has been moved from, the queues answer first in, first out, each with the list it
    was given, and every node there is belongs to exactly one of them. -/
theorem queues_are_fifos {acts : List (Act α)} (h : Legal acts) :
    ∃ p, Program.run acts = .ok p ∧ p.answers = (values acts).2 ∧ (∀ i, p.Is i ((values acts).1 i)) ∧
      (∀ a, p.heap.nodes a ≠ none ↔ ∃ i, p.Owns i a) ∧ ∀ i j a, p.Owns i a → p.Owns j a → i = j := by
  obtain ⟨p, ls, hrun, hans, hinv⟩ := legal_run h
  refine ⟨p, hrun, hans, hinv.is, fun a => ⟨fun ha => ?_, ?_⟩, fun i j a hi hj => ?_⟩
  · obtain ⟨nd, hnd⟩ := Option.ne_none_iff_exists'.mp ha
    obtain ⟨i, hi⟩ := hinv.chains.all a nd hnd
    exact ⟨i, hinv.owns.mpr hi⟩
  · intro hx
    obtain ⟨i, hi⟩ := hx
    obtain ⟨nd, hnd⟩ := chain_live (hinv.chains.each i) (hinv.owns.mp hi)
    rw [hnd]
    exact Option.some_ne_none nd
  · exact hinv.chains.apart (hinv.owns.mp hi) (hinv.owns.mp hj)

/-- A list goes from one queue to another, to itself, and back. -/
theorem queues_are_fifos_back : ∃ p, Program.run [Act.construct 0, .call 0 (.push 7), .moveConstruct 1 0, .moveAssign 1 1,
      .call 1 (.push 8), .moveAssign 0 1, .call 0 .tryPop] = .ok p ∧ p.answers = [some 7] ∧
    p.Is 0 (some (.holds [8])) ∧ p.Is 1 (some .moved) := by
  have h : Legal [Act.construct 0, .call 0 (.push 7), .moveConstruct 1 0, .moveAssign 1 1, .call 1 (.push 8), .moveAssign 0 1,
      .call 0 .tryPop] :=
    Legal.nil.snoc (.construct 0) rfl |>.snoc (.call 0 (.push 7)) ⟨_, rfl⟩
      |>.snoc (.moveConstruct 1 0) ⟨rfl, Option.some_ne_none _⟩
      |>.snoc (.moveAssign 1 1) ⟨Option.some_ne_none _, Option.some_ne_none _⟩ |>.snoc (.call 1 (.push 8)) ⟨_, rfl⟩
      |>.snoc (.moveAssign 0 1) ⟨Option.some_ne_none _, Option.some_ne_none _⟩ |>.snoc (.call 0 .tryPop) ⟨_, rfl⟩
  obtain ⟨p, hrun, hans, his, -⟩ := queues_are_fifos h
  exact ⟨p, hrun, hans, his 0, his 1⟩

-- a push on a queue that has been moved from writes to a node of the other, which does not see the value
example : (Program.run [Act.construct 0, .call 0 (.push 1), .moveConstruct 1 0, .call 0 (.push 2), .call 1 .tryPop,
    .call 1 .tryPop]).map Program.answers = .ok [some 1, none] := rfl

end Wtfsc.SimpleQueue.Moved
