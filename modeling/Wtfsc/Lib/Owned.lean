/-
  Wtfsc.Lib.Owned — nodes owned through `unique_ptr`.

  A node holds a value and owns the node behind it; a node that loses its owner is
  destroyed with all nodes behind it. Addresses are never used again, so a raw pointer to
  a destroyed node dangles for good, and following it is undefined behaviour.
  - `Chain h p l q`: following the owners from `p` one passes the nodes and values `l`
    and arrives at `q`.
  - `chain_snoc`, `chain_set`, `chain_new`: the last node, and what leaves a chain alone.
  - `link_spec`, `pull_spec`: `tail->next = move(node)` and `head = move(head->next)`.
  - `destroy_spec`: what is destroyed is a whole chain.
  - `Chains h roots ls`: many owners in one heap, with every node in exactly one chain;
    `Chains.change`, `Chains.pass`: one owner's chain changes, or goes to another owner.
-/

import Mathlib.Data.List.Perm.Subperm
import Wtfsc.Cpp
import Wtfsc.Lib.Links

namespace Wtfsc.Owned

open Function
open Wtfsc.Cpp
open Wtfsc.Links

variable {β : Type}

structure Node (β : Type) where
  v : β
  next : Option Nat
  deriving DecidableEq, Repr

structure Heap (β : Type) where
  nodes : Nat → Option (Node β)
  fresh : Nat

namespace Heap

def empty : Heap β := ⟨fun _ => none, 0⟩

def put (h : Heap β) (a : Nat) (nd : Option (Node β)) : Heap β := { h with nodes := update h.nodes a nd }

/-- `make_unique<Node>`: a node at the address `h.fresh`. -/
def new (h : Heap β) (v : β) : Heap β := ⟨update h.nodes h.fresh (some ⟨v, none⟩), h.fresh + 1⟩

/-- Following a pointer. -/
def node (h : Heap β) (p : Option Nat) : Exec (Nat × Node β) :=
  match p with
  | none => .error .ub
  | some a => do
    let nd ← deref (h.nodes a)
    .ok (a, nd)

/-- Destroy what a `unique_ptr` owned and all behind it, at most `k` nodes. -/
def destroy : Nat → Heap β → Option Nat → Exec (Heap β)
  | _, h, none => .ok h
  | 0, _, some _ => .error .ub
  | k + 1, h, some a => do
    let nd ← deref (h.nodes a)
    destroy k (h.put a none) nd.next

/-- `p->next = std::move(n)` -/
def link (h : Heap β) (p : Option Nat) (n : Nat) : Exec (Heap β) := do
  let nd ← h.node p
  destroy h.fresh (h.put nd.1 (some { nd.2 with next := some n })) nd.2.next

/-- `p = std::move(p->next)`: the heap without the old node, and the new `p`. -/
def pull (h : Heap β) (p : Option Nat) : Exec (Heap β × Option Nat) := do
  let nd ← h.node p
  let h' ← destroy h.fresh (h.put nd.1 (some { nd.2 with next := none })) p
  .ok (h', nd.2.next)

def next (h : Heap β) (a : Nat) : Option Nat := (h.nodes a).bind Node.next

/-- No node lies at an address not given out yet. -/
def Tidy (h : Heap β) : Prop := ∀ a, h.fresh ≤ a → h.nodes a = none

@[simp] theorem put_fresh (h : Heap β) (a : Nat) (nd : Option (Node β)) : (h.put a nd).fresh = h.fresh := rfl

@[simp] theorem put_same (h : Heap β) (a : Nat) (nd : Option (Node β)) : (h.put a nd).nodes a = nd := by
  simp [put]

theorem put_other (h : Heap β) {a b : Nat} (nd : Option (Node β)) (hb : b ≠ a) : (h.put a nd).nodes b = h.nodes b :=
  update_of_ne hb _ _

theorem put_put (h : Heap β) (a : Nat) (nd nd' : Option (Node β)) : (h.put a nd).put a nd' = h.put a nd' := by
  simp [put]

@[simp] theorem new_fresh (h : Heap β) (v : β) : (h.new v).fresh = h.fresh + 1 := rfl

@[simp] theorem new_same (h : Heap β) (v : β) : (h.new v).nodes h.fresh = some ⟨v, none⟩ := update_self _ _ _

theorem new_other (h : Heap β) {a : Nat} (v : β) (ha : a ≠ h.fresh) : (h.new v).nodes a = h.nodes a :=
  update_of_ne ha _ _

theorem node_some {h : Heap β} {a : Nat} {nd : Node β} (ha : h.nodes a = some nd) : h.node (some a) = .ok (a, nd) := by
  rw [node, ha]
  rfl

theorem Tidy.lt {h : Heap β} (ht : h.Tidy) {a : Nat} {nd : Node β} (ha : h.nodes a = some nd) : a < h.fresh := by
  by_contra hlt
  rw [ht a (by omega)] at ha
  cases ha

theorem empty_tidy : (empty : Heap β).Tidy := fun _ _ => rfl

theorem Tidy.put {h : Heap β} (ht : h.Tidy) {a : Nat} (nd : Option (Node β)) (ha : a < h.fresh) : (h.put a nd).Tidy := by
  intro b hb
  have hb' : h.fresh ≤ b := hb
  rw [put_other h nd (by omega)]
  exact ht b hb'

theorem Tidy.new {h : Heap β} (ht : h.Tidy) (v : β) : (h.new v).Tidy := by
  intro b hb
  rw [new_fresh] at hb
  rw [new_other h v (by omega)]
  exact ht b (by omega)

end Heap

/-! ## Chains -/

def Chain (h : Heap β) (p : Option Nat) (l : List (Nat × β)) (q : Option Nat) : Prop :=
  Path h.next p (l.map Prod.fst) q ∧ ∀ c ∈ l, (h.nodes c.1).map Node.v = some c.2

variable {h h' : Heap β} {p q : Option Nat} {l : List (Nat × β)} {a n : Nat} {v x : β}

theorem chain_nil : Chain h p [] q ↔ p = q := by simp [Chain]

theorem chain_cons : Chain h p ((a, v) :: l) q ↔ p = some a ∧ ∃ n, h.nodes a = some ⟨v, n⟩ ∧ Chain h n l q := by
  constructor
  · intro hx
    obtain ⟨⟨rfl, hl⟩, hv⟩ := hx
    have ha := hv (a, v) List.mem_cons_self
    obtain ⟨⟨w, n⟩, hnode, rfl⟩ := Option.map_eq_some_iff.mp ha
    refine ⟨rfl, n, hnode, ?_, fun c hc => hv c (List.mem_cons_of_mem _ hc)⟩
    have hn : h.next a = n := by rw [Heap.next, hnode]; rfl
    rwa [hn] at hl
  · intro hx
    obtain ⟨rfl, n, hnode, hl, hv⟩ := hx
    have hn : h.next a = n := by rw [Heap.next, hnode]; rfl
    refine ⟨⟨rfl, by rwa [hn]⟩, fun c hc => ?_⟩
    rcases List.mem_cons.mp hc with rfl | hc
    · rw [hnode]
      rfl
    · exact hv c hc

theorem chain_snoc : Chain h p (l ++ [(a, v)]) q ↔ Chain h p l (some a) ∧ h.nodes a = some ⟨v, q⟩ := by
  induction l generalizing p with
  | nil => simp [chain_cons, chain_nil]
  | cons c l ih =>
    obtain ⟨b, w⟩ := c
    rw [List.cons_append, chain_cons, chain_cons]
    constructor
    · intro hx
      obtain ⟨rfl, n, hb, hl⟩ := hx
      obtain ⟨hl, ha⟩ := ih.mp hl
      exact ⟨⟨rfl, n, hb, hl⟩, ha⟩
    · intro hx
      obtain ⟨⟨rfl, n, hb, hl⟩, ha⟩ := hx
      exact ⟨rfl, n, hb, ih.mpr ⟨hl, ha⟩⟩

/-- Only the nodes on the way matter. -/
theorem chain_congr (hc : Chain h p l q) (hsame : ∀ c ∈ l, h'.nodes c.1 = h.nodes c.1) : Chain h' p l q := by
  refine ⟨(path_congr fun b hb => ?_).mpr hc.1, fun c hmem => ?_⟩
  · obtain ⟨c, hmem, rfl⟩ := List.mem_map.mp hb
    rw [Heap.next, Heap.next, hsame c hmem]
  · rw [hsame c hmem]
    exact hc.2 c hmem

theorem chain_put (hc : Chain h p l q) (nd : Option (Node β)) (ha : a ∉ l.map Prod.fst) : Chain (h.put a nd) p l q := by
  apply chain_congr hc
  intro c hmem
  apply Heap.put_other
  intro e
  subst e
  exact ha (List.mem_map_of_mem hmem)

theorem chain_live (hc : Chain h p l q) (ha : a ∈ l.map Prod.fst) : ∃ nd, h.nodes a = some nd := by
  obtain ⟨c, hmem, rfl⟩ := List.mem_map.mp ha
  obtain ⟨nd, hnd, -⟩ := Option.map_eq_some_iff.mp (hc.2 c hmem)
  exact ⟨nd, hnd⟩

theorem chain_new (ht : h.Tidy) (hc : Chain h p l q) (v : β) : Chain (h.new v) p l q := by
  apply chain_congr hc
  intro c hmem
  obtain ⟨nd, hnd⟩ := chain_live hc (List.mem_map_of_mem hmem)
  have hlt := ht.lt hnd
  exact Heap.new_other h v (by omega)

/-- The nodes on the way to null are met once. -/
theorem chain_nodup (hc : Chain h p l none) : (l.map Prod.fst).Nodup := path_nodup hc.1

/-! ## The two assignments -/

/-- A last node takes over the ownership of a new one. -/
theorem link_spec (ha : h.nodes a = some ⟨v, none⟩) : h.link (some a) n = .ok (h.put a (some ⟨v, some n⟩)) := by
  rw [Heap.link, Heap.node_some ha, ok_bind]
  cases h.fresh <;> rfl

/-- A first node gives up the one behind it and is destroyed. -/
theorem pull_spec (ht : h.Tidy) (ha : h.nodes a = some ⟨v, q⟩) : h.pull (some a) = .ok (h.put a none, q) := by
  obtain ⟨k, hk⟩ : ∃ k, h.fresh = k + 1 := ⟨h.fresh - 1, by have := ht.lt ha; omega⟩
  have hdestroy : Heap.destroy h.fresh (h.put a (some ⟨v, none⟩)) (some a) = .ok (h.put a none) := by
    rw [hk, Heap.destroy, Heap.put_same, deref_some, ok_bind, Heap.put_put]
    cases k <;> rfl
  rw [Heap.pull, Heap.node_some ha, ok_bind, hdestroy]
  rfl

/-- The chain behind the first node survives it. -/
theorem chain_pull (hc : Chain h (some a) ((a, v) :: l) none) :
    ∃ n, h.nodes a = some ⟨v, n⟩ ∧ Chain (h.put a none) n l none := by
  obtain ⟨-, n, ha, hl⟩ := chain_cons.mp hc
  have hnd := chain_nodup hc
  rw [List.map_cons, List.nodup_cons] at hnd
  exact ⟨n, ha, chain_put hl none hnd.1⟩

/-! ## Destroying a chain -/

/-- A chain has no more nodes than there are addresses. -/
theorem chain_length (ht : h.Tidy) (hc : Chain h p l none) : l.length ≤ h.fresh := by
  have hsub : l.map Prod.fst ⊆ List.range h.fresh := by
    intro a ha
    obtain ⟨nd, hnd⟩ := chain_live hc ha
    exact List.mem_range.mpr (ht.lt hnd)
  have hle := (List.Nodup.subperm (chain_nodup hc) hsub).length_le
  rwa [List.length_map, List.length_range] at hle

theorem destroy_spec {k : Nat} (hc : Chain h p l none) (hk : l.length ≤ k) :
    ∃ h', Heap.destroy k h p = .ok h' ∧ h'.fresh = h.fresh ∧
      (∀ a ∈ l.map Prod.fst, h'.nodes a = none) ∧ ∀ a, a ∉ l.map Prod.fst → h'.nodes a = h.nodes a := by
  induction l generalizing h p k with
  | nil =>
    obtain rfl := chain_nil.mp hc
    exact ⟨h, by cases k <;> rfl, rfl, (fun a ha => absurd ha List.not_mem_nil), fun _ _ => rfl⟩
  | cons c l ih =>
    obtain ⟨b, w⟩ := c
    obtain ⟨rfl, -⟩ := chain_cons.mp hc
    obtain ⟨n, hb, hrest⟩ := chain_pull hc
    obtain ⟨k, rfl⟩ : ∃ k', k = k' + 1 := ⟨k - 1, by rw [List.length_cons] at hk; omega⟩
    obtain ⟨h', hrun, hfresh, hgone, hsame⟩ := ih hrest (Nat.le_of_succ_le_succ hk)
    refine ⟨h', ?_, hfresh, fun a ha => ?_, fun a ha => ?_⟩
    · rw [Heap.destroy, hb, deref_some, ok_bind]
      exact hrun
    · by_cases hl : a ∈ l.map Prod.fst
      · exact hgone a hl
      · obtain rfl : a = b := (List.mem_cons.mp ha).resolve_right hl
        rw [hsame a hl, Heap.put_same]
    · obtain ⟨hb', hl⟩ := not_or.mp fun h => ha (List.mem_cons.mpr h)
      rw [hsame a hl, Heap.put_other _ _ hb']

/-! ## Many owners -/

section Owners

variable {ι : Type} {roots : ι → Option Nat} {ls : ι → List (Nat × β)} {i j : ι}

/-- The owner `i` has the chain `ls i`, and every node lies in one of them. -/
structure Chains (h : Heap β) (roots : ι → Option Nat) (ls : ι → List (Nat × β)) : Prop where
  each : ∀ i, Chain h (roots i) (ls i) none
  apart : ∀ {i j a}, a ∈ (ls i).map Prod.fst → a ∈ (ls j).map Prod.fst → i = j
  all : ∀ a nd, h.nodes a = some nd → ∃ i, a ∈ (ls i).map Prod.fst

theorem chains_empty : Chains (.empty : Heap β) (fun _ : ι => none) fun _ => [] where
  each _ := chain_nil.mpr rfl
  apart ha := by cases ha
  all _ _ ha := by cases ha

variable [DecidableEq ι]

/-- Owner `i` gets another chain, of nodes it had and of new ones; what it has no more is destroyed. -/
theorem Chains.change {r : Option Nat} {l' : List (Nat × β)} (hC : Chains h roots ls) (hnew : Chain h' r l' none)
    (hfrom : ∀ a ∈ l'.map Prod.fst, a ∈ (ls i).map Prod.fst ∨ h.nodes a = none)
    (hgone : ∀ a ∈ (ls i).map Prod.fst, a ∉ l'.map Prod.fst → h'.nodes a = none)
    (hsame : ∀ a, a ∉ (ls i).map Prod.fst → a ∉ l'.map Prod.fst → h'.nodes a = h.nodes a) :
    Chains h' (update roots i r) (update ls i l') := by
  -- what another owner has is not in either chain of `i`
  have hother : ∀ j, j ≠ i → ∀ a ∈ (ls j).map Prod.fst, a ∉ (ls i).map Prod.fst ∧ a ∉ l'.map Prod.fst := by
    intro j hj a ha
    have hnot : a ∉ (ls i).map Prod.fst := fun hi => hj (hC.apart ha hi)
    refine ⟨hnot, fun hl => ?_⟩
    obtain ⟨nd, hnd⟩ := chain_live (hC.each j) ha
    rcases hfrom a hl with hi | hnone
    · exact hnot hi
    · rw [hnone] at hnd
      cases hnd
  refine ⟨fun j => ?_, fun {j k a} hj hk => ?_, fun a nd hnd => ?_⟩
  · by_cases e : j = i
    · subst e
      rw [update_self, update_self]
      exact hnew
    · rw [update_of_ne e, update_of_ne e]
      refine chain_congr (hC.each j) fun c hc => ?_
      obtain ⟨hi, hl⟩ := hother j e c.1 (List.mem_map_of_mem hc)
      exact hsame c.1 hi hl
  · by_cases ej : j = i <;> by_cases ek : k = i
    · rw [ej, ek]
    · subst ej
      rw [update_self] at hj
      rw [update_of_ne ek] at hk
      exact absurd hj (hother k ek a hk).2
    · subst ek
      rw [update_self] at hk
      rw [update_of_ne ej] at hj
      exact absurd hk (hother j ej a hj).2
    · rw [update_of_ne ej] at hj
      rw [update_of_ne ek] at hk
      exact hC.apart hj hk
  · by_cases hl : a ∈ l'.map Prod.fst
    · exact ⟨i, by rwa [update_self]⟩
    · have hi : a ∉ (ls i).map Prod.fst := by
        intro hi
        rw [hgone a hi hl] at hnd
        cases hnd
      rw [hsame a hi hl] at hnd
      obtain ⟨j, hj⟩ := hC.all a nd hnd
      have e : j ≠ i := by
        intro he
        subst he
        exact hi hj
      exact ⟨j, by rwa [update_of_ne e]⟩

/-- An owner of nothing takes over the chain of another. -/
theorem Chains.pass (hC : Chains h roots ls) (hij : i ≠ j) (hi : ls i = []) :
    Chains h (update (update roots i (roots j)) j none) (update (update ls i (ls j)) j []) := by
  have hls : ∀ k a, a ∈ (update (update ls i (ls j)) j [] k).map Prod.fst →
      (k = i ∧ a ∈ (ls j).map Prod.fst) ∨ (k ≠ i ∧ k ≠ j ∧ a ∈ (ls k).map Prod.fst) := by
    intro k a ha
    by_cases ej : k = j
    · subst ej
      rw [update_self] at ha
      cases ha
    · rw [update_of_ne ej] at ha
      by_cases ei : k = i
      · subst ei
        rw [update_self] at ha
        exact Or.inl ⟨rfl, ha⟩
      · rw [update_of_ne ei] at ha
        exact Or.inr ⟨ei, ej, ha⟩
  refine ⟨fun k => ?_, fun {k k' a} hk hk' => ?_, fun a nd hnd => ?_⟩
  · by_cases ej : k = j
    · subst ej
      rw [update_self, update_self]
      exact chain_nil.mpr rfl
    · rw [update_of_ne ej, update_of_ne ej]
      by_cases ei : k = i
      · subst ei
        rw [update_self, update_self]
        exact hC.each j
      · rw [update_of_ne ei, update_of_ne ei]
        exact hC.each k
  · rcases hls k a hk with ⟨rfl, ha⟩ | ⟨-, hj, ha⟩ <;> rcases hls k' a hk' with ⟨rfl, ha'⟩ | ⟨-, hj', ha'⟩
    · rfl
    · exact absurd (hC.apart ha' ha) hj'
    · exact absurd (hC.apart ha ha') hj
    · exact hC.apart ha ha'
  · obtain ⟨k, hk⟩ := hC.all a nd hnd
    by_cases ej : k = j
    · subst ej
      exact ⟨i, by rwa [update_of_ne hij, update_self]⟩
    · have ei : k ≠ i := by
        intro e
        subst e
        rw [hi] at hk
        cases hk
      exact ⟨k, by rwa [update_of_ne ej, update_of_ne ei]⟩

end Owners

end Wtfsc.Owned
