/-
  Wtfsc.ThreadSafe.ListInvariant — what holds of `ConcurrentList` in every interleaving
  (see `Wtfsc.ThreadSafe.List`).

  A ghost follows the run: the line `ts` of the elements in the list with a mark for each
  call under way behind the node it stands at (`Wtfsc.Lib.Convoy`), the list `rest` the
  line settles to, and `link`, the `next` pointers as they are once the call that is
  rewriting one has finished. `Inv` ties it to the memory:
  - `Shape`: the nodes of the line are there, linked up in its order, and what a call
    holds of its own is apart from them.
  - `Line`: a call that walks stands at its mark and has the mutex of its node.
  - `Hist`: the logs, and that nobody overtakes.
  - `CallOk`: what each call relies on.
  `Inv.others` is the frame of every step: the calls that do not take it see nothing of it.
-/

import Wtfsc.Lib.Convoy
import Wtfsc.Lib.Links
import Wtfsc.Lib.Mutex
import Wtfsc.ThreadSafe.List

namespace Wtfsc.ConcurrentList

open Function
open Wtfsc.Convoy
open Wtfsc.Links
open Wtfsc.Mutex
open scoped List

variable {α : Type}

/-! ## Program counters -/

/-- The node a walk stands at: what is before it the walk has dealt with. -/
def pos : Pc α → Option Addr
  | .readNext _ cur | .lockNext _ cur _ | .callRemove _ cur _ | .takeCur _ cur _ | .takeNext _ cur _ _
  | .setCur _ cur _ _ _ | .unlockNext _ cur _ _ | .destroy _ cur _ | .unlockLast _ cur => some cur
  | .unlockCur _ _ n | .call _ n | .returnData _ n | .unlockFound _ n _ => some n
  | _ => none

/-- The mutex a call has besides that of the node it stands at. -/
def also : Pc α → Option Addr
  | .pushTakeNext _ _ | .pushSetNext _ _ _ | .pushSetHead _ _ | .pushUnlock => some .head
  | .unlockCur _ cur _ => some cur
  | .callRemove _ _ n | .takeCur _ _ n | .takeNext _ _ n _ | .setCur _ _ n _ _ | .unlockNext _ _ n _ => some n
  | _ => none

def holds (a : Addr) (p : Pc α) : Bool := pos p = some a ∨ also p = some a

/-- The node only this call can reach. -/
def own : Pc α → Option Addr
  | .pushLock _ t | .pushTakeNext _ t | .pushSetNext _ t _ | .pushSetHead _ t => some t
  | .takeCur _ _ n | .takeNext _ _ n _ | .setCur _ _ n _ _ | .unlockNext _ _ n _ => some n
  | .destroy _ _ old => old
  | _ => none

/-- The node whose `next` is being rewritten. -/
def rewires : Pc α → Option Addr
  | .pushSetNext _ _ _ | .pushSetHead _ _ => some .head
  | .takeCur _ cur _ | .takeNext _ cur _ _ | .setCur _ cur _ _ _ => some cur
  | _ => none

def started : Pc α → Bool
  | .idle | .pushNew _ => false
  | _ => true

/-- Past the lock of `head_.m`. -/
def entered : Pc α → Bool
  | .idle | .pushNew _ | .pushLock _ _ | .lockHead _ => false
  | _ => true

/-- The element that a push under way is going to put in. -/
def pending : Pc α → List (Elem α)
  | .pushTakeNext x t | .pushSetNext x t _ | .pushSetHead x t => [(t, x)]
  | _ => []

/-- The element a walk stands at and has not called its callback on. -/
def unseen (data : Addr → Option α) : Pc α → List (Elem α)
  | .unlockCur (.removeIf _) _ _ => []
  | .unlockCur _ _ n | .call _ n => (data n).toList.map fun v => (n, v)
  | _ => []

/-- The effect of a walk on the list it finds. -/
def passEffect (calls : Nat → Op α) (c : Nat) (l : List (Elem α)) : List (Elem α) :=
  match calls c with
  | .walk k => k.effect l
  | .pushFront _ => l

/-- `find_first_if` stops at `v`. -/
def Walk.stops : Walk α → α → Bool
  | .findFirstIf f, v => f v
  | _, _ => false

/-! ## The invariant -/

structure Ghost (α : Type) where
  ts : List (Tok (Elem α))
  link : Addr → Option Addr
  rest : List (Elem α)

def Ghost.init : Ghost α := ⟨[], fun _ => none, []⟩

def Ghost.nodes (g : Ghost α) : List Addr := .head :: (elems g.ts).map Prod.fst

/-- What `c` has gone by: its callback's elements, and the one it is about to call it on. -/
def passed (s : LState α) (c : Nat) : List (Elem α) := s.seen c ++ unseen s.data (s.pc c)

structure Shape (s : LState α) (g : Ghost α) : Prop where
  path : Path g.link (some .head) g.nodes none
  live : ∀ a ∈ g.nodes, s.live a = true
  next : ∀ a ∈ g.nodes, (∀ c, rewires (s.pc c) ≠ some a) → s.next a = g.link a
  data : ∀ e ∈ elems g.ts, s.data e.1 = some e.2
  ownOut : ∀ c a, own (s.pc c) = some a → a ∉ g.nodes
  ownOne : ∀ c d a, own (s.pc c) = some a → own (s.pc d) = some a → c = d
  fresh : ∀ c, started (s.pc c) = false → .node c ∉ g.nodes ∧ ∀ d, own (s.pc d) ≠ some (.node c)

structure Line (calls : Nat → Op α) (s : LState α) (g : Ghost α) : Prop where
  locks : Locks holds s.m s.pc
  placed : Placed Prod.fst (fun c => pos (s.pc c)) .head g.ts
  walking : ∀ c, c ∈ marks g.ts ↔ (pos (s.pc c)).isSome
  file : InFile (passEffect calls) (s.before calls) (passed s) g.rest g.ts
  total : serial calls s.order = pending (holder .idle (s.m .head) s.pc) ++ g.rest

structure Hist (calls : Nat → Op α) (s : LState α) (g : Ghost α) : Prop where
  once : s.order.Nodup
  inside : ∀ c, c ∈ s.order ↔ entered (s.pc c) = true
  behind : marks g.ts <+ s.order.reverse
  visits : ∀ v ∈ s.visits, v.1 ∈ s.order
  removals : ∀ v ∈ s.removals, v.1 ∈ s.order
  /-- What a call has visited no older call has before it. -/
  ahead : ∀ v ∈ s.visits, ∀ c, [c, v.1] <+ s.order → (pos (s.pc c)).isSome →
    v.2 ∉ (s.before calls c).drop (s.seen c).length
  inOrder : s.visits.Pairwise fun v w => v.2 = w.2 → ¬ [w.1, v.1] <+ s.order

/-- A walk at `p` that has not come to its end. -/
def WalkOk (calls : Nat → Op α) (s : LState α) (c : Nat) (p : Pc α) (k : Walk α) : Prop :=
  calls c = .walk k ∧ s.removed c ++ (own p).toList = k.removes (s.seen c) ∧ ∀ e ∈ s.seen c, k.stops e.2 = false

def PushOk (calls : Nat → Op α) (s : LState α) (c : Nat) (x : α) : Prop :=
  calls c = .pushFront x ∧ s.seen c = [] ∧ s.removed c = []

/-- The new node of a push. -/
def NewOk (s : LState α) (c : Nat) (x : α) (t : Addr) (next : Option Addr) : Prop :=
  t = .node c ∧ s.live t = true ∧ s.data t = some x ∧ s.next t = next

def FoundOk (calls : Nat → Op α) (s : LState α) (c : Nat) (f : α → Bool) (n : Addr) (v : α) : Prop :=
  calls c = .walk (.findFirstIf f) ∧ f v = true ∧ s.removed c = [] ∧ s.data n = some v ∧
    ∃ l, s.seen c = l ++ [(n, v)] ∧ ∀ e ∈ l, f e.2 = false

/-- What a call at `p` relies on. -/
def CallOk (calls : Nat → Op α) (s : LState α) (g : Ghost α) (c : Nat) (p : Pc α) : Prop :=
  match p with
  | .idle => True
  | .pushNew x => calls c = .pushFront x
  | .pushLock x t => calls c = .pushFront x ∧ NewOk s c x t none
  | .pushTakeNext x t => PushOk calls s c x ∧ NewOk s c x t none
  | .pushSetNext x t p => PushOk calls s c x ∧ NewOk s c x t none ∧ s.next .head = none ∧ p = g.link .head
  | .pushSetHead x t => PushOk calls s c x ∧ NewOk s c x t (g.link .head) ∧ s.next .head = none
  | .pushUnlock => ∃ x, PushOk calls s c x
  | .lockHead k => calls c = .walk k
  | .readNext k _ => WalkOk calls s c p k
  | .lockNext k cur n => WalkOk calls s c p k ∧ g.link cur = some n
  | .unlockCur k cur n => WalkOk calls s c p k ∧ cur ≠ n ∧ n ≠ .head ∧ cur ∈ g.nodes
  | .call k n => WalkOk calls s c p k ∧ n ≠ .head ∧ ∀ f, k ≠ .removeIf f
  | .callRemove f cur n => WalkOk calls s c p (.removeIf f) ∧ g.link cur = some n
  | .takeCur f cur n => WalkOk calls s c p (.removeIf f) ∧ s.live n = true ∧ s.next cur = some n ∧ s.next n = g.link cur
  | .takeNext f cur n old =>
    WalkOk calls s c p (.removeIf f) ∧ s.live n = true ∧ s.next cur = none ∧ s.next n = g.link cur ∧ old = some n
  | .setCur f cur n old p' =>
    WalkOk calls s c p (.removeIf f) ∧ s.live n = true ∧ s.next cur = none ∧ s.next n = none ∧ p' = g.link cur ∧
    old = some n
  | .unlockNext f _ n old => WalkOk calls s c p (.removeIf f) ∧ s.live n = true ∧ s.next n = none ∧ old = some n
  | .destroy f _ old => WalkOk calls s c p (.removeIf f) ∧ ∃ n, old = some n ∧ s.live n = true ∧ s.next n = none
  | .returnData f n => ∃ v, FoundOk calls s c f n v
  | .unlockFound f n v => ∃ w, v = some w ∧ FoundOk calls s c f n w
  | .unlockLast k cur => WalkOk calls s c p k ∧ g.link cur = none
  | .returned r => r = (calls c).answer (s.before calls c) ∧ s.seen c = (calls c).visits (s.before calls c) ∧
      s.removed c = (calls c).removes (s.before calls c)
  | .fault => False

structure Inv (calls : Nat → Op α) (s : LState α) (g : Ghost α) : Prop where
  shape : Shape s g
  line : Line calls s g
  hist : Hist calls s g
  ok : ∀ c, CallOk calls s g c (s.pc c)

variable {calls : Nat → Op α} {s s' : LState α} {g g' : Ghost α} {c d : Nat} {p p₀ : Pc α} {a : Addr}

theorem inv_init : Inv calls .init Ghost.init where
  shape :=
    { path := ⟨rfl, rfl⟩
      live := fun a ha => by simp [Ghost.nodes, Ghost.init, elems] at ha; subst ha; rfl
      next := fun _ _ _ => rfl
      data := fun e he => by cases he
      ownOut := fun c a ha => by cases ha
      ownOne := fun c d a ha => by cases ha
      fresh := fun c _ => ⟨by simp [Ghost.nodes, Ghost.init, elems], fun d hd => by cases hd⟩ }
  line :=
    { locks := fun a c => by simp [LState.init, holds, pos, also]
      placed := trivial
      walking := fun c => by simp [Ghost.init, marks, LState.init, pos]
      file := ⟨rfl, trivial, List.nodup_nil⟩
      total := rfl }
  hist :=
    { once := List.nodup_nil
      inside := fun c => by simp [LState.init, entered]
      behind := List.Sublist.refl _
      visits := fun v hv => by cases hv
      removals := fun v hv => by cases hv
      ahead := fun v hv => by cases hv
      inOrder := List.Pairwise.nil }
  ok := fun c => trivial

/-! ## What a call can reach -/

@[simp] theorem holds_iff : holds a p = true ↔ pos p = some a ∨ also p = some a := by
  simp [holds]

theorem Inv.okAt (h : Inv calls s g) (hc : s.pc c = p₀) : CallOk calls s g c p₀ := hc ▸ h.ok c

theorem Inv.out (h : Inv calls s g) (hc : s.pc c = p₀) (ho : own p₀ = some a) : a ∉ g.nodes :=
  h.shape.ownOut c a (hc ▸ ho)

/-- A call that walks stands at a node of the list. -/
theorem Inv.pos_mem (h : Inv calls s g) (hc : s.pc c = p₀) (hp : pos p₀ = some a) : a ∈ g.nodes := by
  subst hc
  have hm : c ∈ marks g.ts := (h.line.walking c).mpr (by rw [hp]; rfl)
  obtain ⟨b, hb, hpb⟩ := placed_mem h.line.placed hm
  rw [hp] at hpb
  rw [Option.some.inj hpb]
  exact hb

theorem head_mem : .head ∈ g.nodes := List.mem_cons_self

/-- A linked node is in the list. -/
theorem Inv.link_mem {b : Addr} (h : Inv calls s g) (ha : a ∈ g.nodes) (hl : g.link a = some b) : b ∈ g.nodes := by
  obtain ⟨l, r, e⟩ := List.append_of_mem ha
  have hp := h.shape.path
  rw [e] at hp ⊢
  rw [path_link hp] at hl
  exact List.mem_append_right _ (List.mem_cons_of_mem _ (List.mem_of_mem_head? hl))

theorem Inv.held_mem (h : Inv calls s g) (ha : holds a (s.pc c) = true) : a ∈ g.nodes ∨ own (s.pc c) = some a := by
  rcases holds_iff.mp ha with hp | hp
  · exact Or.inl (h.pos_mem rfl hp)
  · have hok := h.ok c
    cases hc : s.pc c <;> rw [hc] at hp hok <;> simp only [also, reduceCtorEq, Option.some.injEq] at hp
    case unlockCur k cur n =>
      subst hp
      exact Or.inl hok.2.2.2
    case callRemove f cur n =>
      subst hp
      exact Or.inl (h.link_mem (h.pos_mem hc rfl) hok.2)
    case pushTakeNext | pushSetNext | pushSetHead | pushUnlock =>
      subst hp
      exact Or.inl head_mem
    all_goals exact Or.inr (congrArg some hp)

/-- The nodes a step of `c` from `p` can touch. -/
def touches (c : Nat) (p : Pc α) (a : Addr) : Prop :=
  holds a p = true ∨ own p = some a ∨ (a = .node c ∧ started p = false)

/-- Nobody else has to do with such a node. -/
theorem Inv.apart (h : Inv calls s g) (hc : s.pc c = p₀) (hd : d ≠ c) (ha : touches c p₀ a)
    (hd' : holds a (s.pc d) = true ∨ own (s.pc d) = some a) : False := by
  subst hc
  rcases ha with ha | ha | ⟨rfl, ha⟩
  · rcases hd' with hd' | hd'
    · exact hd (excl_unique (h.line.locks a) ha hd')
    · rcases h.held_mem ha with hm | ho
      · exact h.shape.ownOut d a hd' hm
      · exact hd (h.shape.ownOne d c a hd' ho)
  · rcases hd' with hd' | hd'
    · rcases h.held_mem hd' with hm | ho
      · exact h.shape.ownOut c a ha hm
      · exact hd (h.shape.ownOne d c a ho ha)
    · exact hd (h.shape.ownOne d c a hd' ha)
  · obtain ⟨hn, ho⟩ := h.shape.fresh c ha
    rcases hd' with hd' | hd'
    · rcases h.held_mem hd' with hm | ho'
      · exact hn hm
      · exact ho d ho'
    · exact ho d hd'

/-- All that is said about the node `a` is the same before and after. -/
structure Same (s s' : LState α) (g g' : Ghost α) (a : Addr) : Prop where
  live : s'.live a = s.live a
  data : s'.data a = s.data a
  next : s'.next a = s.next a
  link : g'.link a = g.link a
  nodes : a ∈ g.nodes → a ∈ g'.nodes

theorem CallOk.frame (h : CallOk calls s g d p) (ha : ∀ a, holds a p = true ∨ own p = some a → Same s s' g g' a)
    (hs : s'.seen d = s.seen d) (hr : s'.removed d = s.removed d)
    (hb : entered p = true → s'.before calls d = s.before calls d) : CallOk calls s' g' d p := by
  have hw : ∀ {k}, WalkOk calls s d p k → WalkOk calls s' d p k := by
    intro k hk
    unfold WalkOk at hk ⊢
    rwa [hs, hr]
  have hp : ∀ {x}, PushOk calls s d x → PushOk calls s' d x := by
    intro x hx
    unfold PushOk at hx ⊢
    rwa [hs, hr]
  have hn : ∀ {x t q}, own p = some t → NewOk s d x t q → NewOk s' d x t q := by
    intro x t q ht hx
    have := ha t (Or.inr ht)
    unfold NewOk at hx ⊢
    rwa [this.live, this.data, this.next]
  have hf : ∀ {f n v}, holds n p = true → FoundOk calls s d f n v → FoundOk calls s' d f n v := by
    intro f n v hn hx
    have := ha n (Or.inl hn)
    unfold FoundOk at hx ⊢
    rwa [this.data, hs, hr]
  cases p with
  | idle => trivial
  | pushNew x => exact h
  | pushLock x t => exact ⟨h.1, hn rfl h.2⟩
  | pushTakeNext x t => exact ⟨hp h.1, hn rfl h.2⟩
  | pushSetNext x t q =>
    obtain ⟨hx, ht, hh, hq⟩ := h
    have hhead := ha .head (Or.inl (by simp [also]))
    exact ⟨hp hx, hn rfl ht, hhead.next.trans hh, hq.trans hhead.link.symm⟩
  | pushSetHead x t =>
    obtain ⟨hx, ht, hh⟩ := h
    have hhead := ha .head (Or.inl (by simp [also]))
    refine ⟨hp hx, ?_, hhead.next.trans hh⟩
    rw [hhead.link]
    exact hn rfl ht
  | pushUnlock => exact h.imp fun x hx => hp hx
  | lockHead k => exact h
  | readNext k cur => exact hw h
  | lockNext k cur n => exact ⟨hw h.1, (ha cur (Or.inl (by simp [pos]))).link.trans h.2⟩
  | unlockCur k cur n => exact ⟨hw h.1, h.2.1, h.2.2.1, (ha cur (Or.inl (by simp [also]))).nodes h.2.2.2⟩
  | call k n => exact ⟨hw h.1, h.2⟩
  | callRemove f cur n => exact ⟨hw h.1, (ha cur (Or.inl (by simp [pos]))).link.trans h.2⟩
  | takeCur f cur n =>
    obtain ⟨hk, hl, hc, ho⟩ := h
    have hcur := ha cur (Or.inl (by simp [pos]))
    have hn' := ha n (Or.inr rfl)
    exact ⟨hw hk, hn'.live.trans hl, hcur.next.trans hc, hn'.next.trans (ho.trans hcur.link.symm)⟩
  | takeNext f cur n old =>
    obtain ⟨hk, hl, hc, ho, he⟩ := h
    have hcur := ha cur (Or.inl (by simp [pos]))
    have hn' := ha n (Or.inr rfl)
    exact ⟨hw hk, hn'.live.trans hl, hcur.next.trans hc, hn'.next.trans (ho.trans hcur.link.symm), he⟩
  | setCur f cur n old q =>
    obtain ⟨hk, hl, hc, ho, hq, he⟩ := h
    have hcur := ha cur (Or.inl (by simp [pos]))
    have hn' := ha n (Or.inr rfl)
    exact ⟨hw hk, hn'.live.trans hl, hcur.next.trans hc, hn'.next.trans ho, hq.trans hcur.link.symm, he⟩
  | unlockNext f cur n old =>
    obtain ⟨hk, hl, ho, he⟩ := h
    have hn' := ha n (Or.inr rfl)
    exact ⟨hw hk, hn'.live.trans hl, hn'.next.trans ho, he⟩
  | destroy f cur old =>
    obtain ⟨hk, n, rfl, hl, ho⟩ := h
    have hn' := ha n (Or.inr rfl)
    exact ⟨hw hk, n, rfl, hn'.live.trans hl, hn'.next.trans ho⟩
  | returnData f n => exact h.imp fun v hv => hf (by simp [pos]) hv
  | unlockFound f n v => exact h.imp fun w hv => ⟨hv.1, hf (by simp [pos]) hv.2⟩
  | unlockLast k cur => exact ⟨hw h.1, (ha cur (Or.inl (by simp [pos]))).link.trans h.2⟩
  | returned r =>
    have hb' := hb rfl
    simp only [CallOk] at h ⊢
    rwa [hb', hs, hr]
  | fault => exact h

end Wtfsc.ConcurrentList
