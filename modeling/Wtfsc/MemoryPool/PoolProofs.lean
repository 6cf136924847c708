/-
  Wtfsc.MemoryPool.PoolProofs — the memory pool's properties (see `Wtfsc.MemoryPool.Pool`).

  Each block is an arena (`Wtfsc.Arena`) of units: `allocate` puts a unit on top,
  `deallocate` takes the top unit off or lets another one die in place. `Inv` says that
  the blocks on the heap are the chain from `firstBlock` to `currentBlock`, and that
  each block's fields and bytes are those of its arena.
  - `units_contained`: no call within the rules goes wrong, and the live units lie apart
    inside their blocks with their headers intact.
  - `blocks_alive`: what the chain is, what the counters count, and that every block but
    the first holds a live unit, as long as no request wraps. One that does is a unit of
    no bytes to the code, and its block is freed under it (`freed_under_a_live_unit`).
-/

import Wtfsc.Lib.Arena
import Wtfsc.Lib.Links
import Wtfsc.MemoryPool.Pool

namespace Wtfsc.MemoryPool

open Function
open Wtfsc.Cpp
open Wtfsc.Arena
open Wtfsc.Links

/-! ## Heaps -/

def nextOf (heap : Nat → Option Block) (id : Nat) : Option Nat := (heap id).bind Block.next

def prevOf (heap : Nat → Option Block) (id : Nat) : Option Nat := (heap id).bind Block.prev

theorem nextOf_some {heap : Nat → Option Block} {id : Nat} {b : Block} (h : heap id = some b) :
    nextOf heap id = b.next := by
  unfold nextOf; rw [h]; rfl

theorem prevOf_some {heap : Nat → Option Block} {id : Nat} {b : Block} (h : heap id = some b) :
    prevOf heap id = b.prev := by
  unfold prevOf; rw [h]; rfl

theorem nextOf_update (heap : Nat → Option Block) (id : Nat) (b : Option Block) :
    nextOf (update heap id b) = update (nextOf heap) id (b.bind Block.next) := by
  funext x
  by_cases e : x = id
  · subst e; simp [nextOf]
  · simp [nextOf, update_of_ne e]

theorem prevOf_update (heap : Nat → Option Block) (id : Nat) (b : Option Block) :
    prevOf (update heap id b) = update (prevOf heap) id (b.bind Block.prev) := by
  funext x
  by_cases e : x = id
  · subst e; simp [prevOf]
  · simp [prevOf, update_of_ne e]

def sizes (heap : Nat → Option Block) (id : Nat) : Option Nat := (heap id).map Block.blockSize

theorem sizes_update (heap : Nat → Option Block) (id : Nat) (b : Option Block) :
    sizes (update heap id b) = update (sizes heap) id (b.map Block.blockSize) := by
  funext x
  by_cases e : x = id
  · subst e; simp [sizes]
  · simp [sizes, update_of_ne e]

theorem sizes_same {heap : Nat → Option Block} {id : Nat} {b c : Block} (h : heap id = some b)
    (hsize : c.blockSize = b.blockSize) : sizes (update heap id (some c)) = sizes heap := by
  have hold : sizes heap id = some b.blockSize := by rw [sizes, h]; rfl
  rw [sizes_update, Option.map_some, hsize, ← hold, update_eq_self]

/-- A block, or none, up to its links. -/
def Relinked (b b' : Option Block) : Prop := ∃ n p, b' = b.map fun c => { c with next := n, prev := p }

theorem relinked_refl (b : Option Block) : Relinked b b := by
  cases b with
  | none => exact ⟨none, none, rfl⟩
  | some c => exact ⟨c.next, c.prev, rfl⟩

theorem relinked_update {heap heap' : Nat → Option Block} {y : Nat} {c d : Block} (hc : heap y = some c)
    (hd : Relinked (some c) (some d)) (h : ∀ x, x ≠ y → Relinked (heap x) (heap' x)) (x : Nat) :
    Relinked (heap x) (update heap' y (some d) x) := by
  by_cases e : x = y
  · subst e; rw [update_self, hc]; exact hd
  · rw [update_of_ne e]; exact h x e

theorem sizes_relinked {heap heap' : Nat → Option Block} (h : ∀ x, Relinked (heap x) (heap' x)) :
    sizes heap' = sizes heap := by
  funext x
  obtain ⟨n, p, hx⟩ := h x
  rw [sizes, sizes, hx, Option.map_map]
  rfl

theorem load_some {s : Pool} {id : Nat} {b : Block} (h : s.heap id = some b) : load (some id) s = .ok b s := by
  unfold load
  rw [Option.bind_some, h]

theorem store_some {s : Pool} {id : Nat} {b : Block} (f : Block → Block) (h : s.heap id = some b) :
    store (some id) f s = .ok () { s with heap := update s.heap id (some (f b)) } := by
  unfold store
  simp only [h]

/-! ## Unit headers -/

theorem unitAt_congr {mem mem' : Nat → Cell} {off : Nat} (h : ∀ k, off ≤ k → k < off + unitHeaderSize → mem' k = mem k) :
    unitAt mem' off = unitAt mem off := by
  unfold unitAt
  rw [h off (Nat.le_refl _) (by unfold unitHeaderSize; omega)]
  split
  · rename_i u i _
    have : (∀ i < unitHeaderSize, mem' (off + i) = .unit u i) ↔ ∀ i < unitHeaderSize, mem (off + i) = .unit u i := by
      constructor
      · intro h' i hi
        rw [← h (off + i) (by omega) (by omega)]; exact h' i hi
      · intro h' i hi
        rw [h (off + i) (by omega) (by omega)]; exact h' i hi
    simp only [this]
  · rfl

theorem unitAt_put (mem : Nat → Cell) (off : Nat) (u : UnitHeader) : unitAt (putUnit mem off u) off = some u := by
  have hin : ∀ i, i < unitHeaderSize → putUnit mem off u (off + i) = .unit u i := by
    intro i hi
    rw [putUnit, if_pos ⟨by omega, by omega⟩, Nat.add_sub_cancel_left]
  have h0 : putUnit mem off u off = .unit u 0 := hin 0 (by decide)
  unfold unitAt
  rw [h0]
  exact if_pos hin

/-- A header apart from what was written reads as before. -/
theorem unitAt_put_apart (mem : Nat → Cell) {off off' : Nat} (u : UnitHeader) (h : off + unitHeaderSize ≤ off') :
    unitAt (putUnit mem off' u) off = unitAt mem off := by
  apply unitAt_congr
  intro k _ hk
  exact if_neg (by omega)

/-! ## The invariant -/

/-- The fields and bytes of block `id` are those of the arena `st`. -/
structure BlockOk (id : Nat) (b : Block) (st : List Slot) : Prop where
  offset : b.offset = height unitHeaderSize st
  fits : b.offset ≤ b.blockSize
  bytes : b.bytes = blockHeaderSize + b.blockSize
  small : b.bytes < 2 ^ 64
  allocated : b.numberOfAllocated = st.length
  deleted : b.numberOfDeleted = dead st
  headers : ∀ e ∈ spans unitHeaderSize st, unitAt b.mem (blockHeaderSize + e.1) = some ⟨e.2, id⟩

/-- The client's view of the unit that starts at `e.1` of block `id`. -/
def unitOf (id : Nat) (e : Nat × Nat) : Live := ⟨⟨id, blockHeaderSize + e.1 + unitHeaderSize⟩, e.2⟩

/-- `l` is the chain of blocks, `st` the arena of each. -/
structure Inv (s : Pool) (live : List Live) (l : List Nat) (st : Nat → List Slot) : Prop where
  chain : Doubly (nextOf s.heap) (prevOf s.heap) s.firstBlock s.currentBlock l
  nonempty : l ≠ []
  heap : ∀ id, id ∈ l ↔ ∃ b, s.heap id = some b
  fresh : ∀ id ∈ l, id < s.fresh
  blocks : ∀ id b, s.heap id = some b → BlockOk id b (st id)
  gone : ∀ id, s.heap id = none → st id = []
  live : ∀ id, (live.filter fun u => u.ptr.block = id).Perm ((spans unitHeaderSize (st id)).map (unitOf id))
  default : blockHeaderSize + s.defaultBlockSize < 2 ^ 64

/-- Every block but the first holds a live unit. -/
def Used (s : Pool) (l : List Nat) (st : Nat → List Slot) : Prop :=
  ∀ id ∈ l, some id ≠ s.firstBlock → spans unitHeaderSize (st id) ≠ []

/-! ## One block -/

section BlockOk

variable {id : Nat} {b : Block} {st : List Slot}

theorem BlockOk.relink (h : BlockOk id b st) (n p : Option Nat) : BlockOk id { b with next := n, prev := p } st :=
  ⟨h.offset, h.fits, h.bytes, h.small, h.allocated, h.deleted, h.headers⟩

theorem BlockOk.fresh {size : Nat} {n p : Option Nat} {mem : Nat → Cell} (h : blockHeaderSize + size < 2 ^ 64) :
    BlockOk id ⟨size, 0, n, p, 0, 0, blockHeaderSize + size, mem⟩ [] :=
  ⟨rfl, Nat.zero_le _, rfl, h, rfl, rfl, fun _ he => absurd he List.not_mem_nil⟩

/-- The counters stay below the offset, so no arithmetic on them wraps. -/
theorem BlockOk.length_le (h : BlockOk id b st) : st.length ≤ b.offset := by
  rw [h.offset]
  exact length_le_height (by decide) st

/-- What is left of the block is computed without a wrap. -/
theorem BlockOk.room (h : BlockOk id b st) : size64 ((b.blockSize : Int) - b.offset) = b.blockSize - b.offset := by
  have hbytes := h.bytes
  have hsmall := h.small
  have hfits := h.fits
  rw [← Int.ofNat_sub h.fits]
  exact size64_natCast (by omega)

/-- A unit goes on top. -/
theorem BlockOk.push {size : Nat} (h : BlockOk id b st) (hroom : b.offset + (unitHeaderSize + size) ≤ b.blockSize) :
    BlockOk id { b with
      mem := putUnit b.mem (blockHeaderSize + b.offset) ⟨size, id⟩
      numberOfAllocated := b.numberOfAllocated + 1
      offset := b.offset + (unitHeaderSize + size) } (⟨size, true⟩ :: st) where
  offset := by dsimp only; rw [h.offset, height_cons]
  fits := hroom
  bytes := h.bytes
  small := h.small
  allocated := by dsimp only; rw [h.allocated, List.length_cons]
  deleted := by dsimp only; rw [h.deleted, dead_live]
  headers e he := by
    rw [spans_live, List.mem_cons, ← h.offset] at he
    rcases he with rfl | he
    · exact unitAt_put _ _ _
    · have := spans_le he
      have := h.offset
      dsimp only
      rw [unitAt_put_apart _ _ (by omega)]
      exact h.headers e he

/-- The top unit comes off. -/
theorem BlockOk.pop {n : Nat} (h : BlockOk id b (⟨n, true⟩ :: st)) :
    BlockOk id { b with
      offset := size64 ((b.offset : Int) - (unitHeaderSize + n : Nat))
      numberOfAllocated := size64 ((b.numberOfAllocated : Int) - 1) } st := by
  have hoffset : b.offset = height unitHeaderSize st + (unitHeaderSize + n) := h.offset
  have hcount : b.numberOfAllocated = st.length + 1 := h.allocated
  have hlen : st.length + 1 ≤ b.offset := h.length_le
  have hbytes := h.bytes
  have hsmall := h.small
  have hfits := h.fits
  have h₁ : size64 ((b.offset : Int) - (unitHeaderSize + n : Nat)) = height unitHeaderSize st := by
    rw [show (b.offset : Int) - (unitHeaderSize + n : Nat) = (height unitHeaderSize st : Nat) by omega]
    exact size64_natCast (by omega)
  have h₂ : size64 ((b.numberOfAllocated : Int) - 1) = st.length := by
    rw [show (b.numberOfAllocated : Int) - 1 = (st.length : Nat) by omega]
    exact size64_natCast (by omega)
  refine ⟨h₁, ?_, hbytes, hsmall, h₂, h.deleted.trans (dead_live n st), fun e he => ?_⟩
  · dsimp only
    rw [h₁]; omega
  · apply h.headers e
    rw [spans_live]
    exact List.mem_cons_of_mem _ he

/-- A unit dies in place. -/
theorem BlockOk.kill {n : Nat} {a r : List Slot} (h : BlockOk id b (a ++ ⟨n, true⟩ :: r)) :
    BlockOk id { b with numberOfDeleted := size64 (b.numberOfDeleted + 1 : Nat) } (a ++ ⟨n, false⟩ :: r) := by
  have hlength : (a ++ ⟨n, true⟩ :: r).length = (a ++ (⟨n, false⟩ : Slot) :: r).length := by simp
  have htotal := length_spans unitHeaderSize (a ++ ⟨n, true⟩ :: r)
  have hlen := h.length_le
  have hdead := h.deleted
  have hbytes := h.bytes
  have hsmall := h.small
  have hfits := h.fits
  have hheader : blockHeaderSize = 48 := rfl
  have h₁ : size64 (b.numberOfDeleted + 1 : Nat) = b.numberOfDeleted + 1 := size64_natCast (by omega)
  refine ⟨h.offset.trans (height_kill a r n true false), hfits, hbytes, hsmall, h.allocated.trans hlength, ?_,
    fun e he => ?_⟩
  · dsimp only
    rw [h₁, hdead, dead_kill]
  · exact h.headers e ((spans_kill unitHeaderSize a r n).symm.subset (List.mem_cons_of_mem _ he))

/-- Nothing of a block is live exactly when its offset or its counters say so. -/
theorem BlockOk.unused (h : BlockOk id b st) :
    (b.offset = 0 ∨ b.numberOfAllocated = b.numberOfDeleted) ↔ spans unitHeaderSize st = [] := by
  have htotal := length_spans unitHeaderSize st
  have hlen := h.length_le
  rw [h.allocated, h.deleted, ← List.length_eq_zero_iff]
  constructor
  · intro hor
    rcases hor with h0 | heq <;> omega
  · intro h0
    exact Or.inr (by omega)

end BlockOk

/-! ## The chain -/

variable {s : Pool} {live : List Live} {l : List Nat} {st : Nat → List Slot}

theorem Inv.current (h : Inv s live l st) :
    ∃ l' cur b, l = l' ++ [cur] ∧ s.currentBlock = some cur ∧ s.heap cur = some b := by
  obtain ⟨l', cur, rfl⟩ := List.eq_nil_or_concat' l |>.resolve_left h.nonempty
  obtain ⟨b, hb⟩ := (h.heap cur).mp (by simp)
  have hlast := doubly_last h.chain
  rw [List.getLast?_append, List.getLast?_singleton, Option.some_or] at hlast
  exact ⟨l', cur, b, rfl, hlast, hb⟩

/-- Change the arena of one block, its links staying as they are. -/
theorem Inv.setBlock {live' : List Live} {id : Nat} {b b' : Block} {st' : List Slot} (h : Inv s live l st)
    (hb : s.heap id = some b) (hn : b'.next = b.next) (hp : b'.prev = b.prev) (hok : BlockOk id b' st')
    (hlive : (live'.filter fun u => u.ptr.block = id).Perm ((spans unitHeaderSize st').map (unitOf id)))
    (hother : ∀ x, x ≠ id → (live'.filter fun u => u.ptr.block = x).Perm (live.filter fun u => u.ptr.block = x)) :
    Inv { s with heap := update s.heap id (some b') } live' l (update st id st') where
  chain := by
    show Doubly (nextOf _) (prevOf _) _ _ _
    rw [nextOf_update, prevOf_update, Option.bind_some, Option.bind_some, hn, hp, ← nextOf_some hb, ← prevOf_some hb,
      update_eq_self, update_eq_self]
    exact h.chain
  nonempty := h.nonempty
  heap x := by
    by_cases e : x = id
    · subst e
      rw [h.heap x, hb]
      simp
    · simp only [update_of_ne e]; exact h.heap x
  fresh := h.fresh
  blocks x c hc := by
    by_cases e : x = id
    · subst e
      simp only [update_self] at hc ⊢
      cases hc
      exact hok
    · simp only [update_of_ne e] at hc ⊢
      exact h.blocks x c hc
  gone x hx := by
    by_cases e : x = id
    · subst e; simp at hx
    · simp only [update_of_ne e] at hx ⊢
      exact h.gone x hx
  live x := by
    by_cases e : x = id
    · subst e; rw [update_self]; exact hlive
    · rw [update_of_ne e]; exact (hother x e).trans (h.live x)
  default := h.default

/-! ## Allocating -/

theorem createMemoryBlock_fails (size : Nat) (s : Pool) :
    createMemoryBlock size false s = .error (.throws "CANNOT_CREATE_BLOCK") s := by
  simp [createMemoryBlock, run_bind]

theorem Inv.fresh_none (h : Inv s live l st) : s.heap s.fresh = none := by
  cases hs : s.heap s.fresh with
  | none => rfl
  | some b => exact absurd (h.fresh _ ((h.heap _).mpr ⟨b, hs⟩)) (Nat.lt_irrefl _)

theorem createMemoryBlock_eq {size cur : Nat} {c : Block} (h : Inv s live l st) (hcur : s.currentBlock = some cur)
    (hc : s.heap cur = some c) (hsize : blockHeaderSize + size < 2 ^ 64) :
    createMemoryBlock size true s = .ok () { s with
      fresh := s.fresh + 1
      heap := update (update s.heap s.fresh
        (some ⟨size, 0, none, some cur, 0, 0, blockHeaderSize + size, fun _ => .undef⟩))
        cur (some { c with next := some s.fresh })
      currentBlock := some s.fresh } := by
  have hne : cur ≠ s.fresh := by
    intro e
    subst e
    rw [h.fresh_none] at hc
    cases hc
  have hbytes : size64 (blockHeaderSize + size : Nat) = blockHeaderSize + size := size64_natCast hsize
  have hfirst : s.firstBlock.isSome = true := by
    rw [doubly_first h.chain, List.isSome_head?]
    exact h.nonempty
  unfold createMemoryBlock
  rw [hbytes]
  simp only [run_bind, run_get, run_set, run_modify, hfirst, hcur, if_true, Bool.not_true, Bool.false_eq_true, if_false,
    Nat.not_lt_of_le (Nat.le_add_right blockHeaderSize size)]
  rw [store_some (b := c) _ (by dsimp only; rw [update_of_ne hne, hc])]

/-- A new block goes to the end of the chain and becomes the current one. -/
theorem Inv.grow {l' : List Nat} {cur : Nat} {c b : Block} (h : Inv s live (l' ++ [cur]) st)
    (hcur : s.currentBlock = some cur) (hc : s.heap cur = some c) (hb : BlockOk s.fresh b [])
    (hnext : b.next = none) (hprev : b.prev = some cur) :
    Inv { s with
      fresh := s.fresh + 1
      heap := update (update s.heap s.fresh (some b)) cur (some { c with next := some s.fresh })
      currentBlock := some s.fresh } live (l' ++ [cur] ++ [s.fresh]) st := by
  have hnew : s.fresh ∉ l' ++ [cur] := fun hm => Nat.lt_irrefl _ (h.fresh _ hm)
  have hne : cur ≠ s.fresh := fun e => hnew (by simp [e])
  have hchain := h.chain
  rw [hcur] at hchain
  exact {
    chain := by
      dsimp only
      rw [nextOf_update, nextOf_update, prevOf_update, prevOf_update]
      apply doubly_congr (doubly_snoc hchain hnew)
      · intro x _
        rw [Option.bind_some, Option.bind_some, hnext]
      · intro x _
        by_cases e : x = cur
        · subst e
          simp [update_of_ne hne, prevOf_some hc]
        · simp [update_of_ne e, hprev]
    nonempty := by simp
    heap := fun x => by
      by_cases e : x = s.fresh
      · subst e; simp [update_of_ne hne.symm]
      · by_cases e' : x = cur
        · subst e'; simp
        · simp only [update_of_ne e', update_of_ne e, ← h.heap x]
          simp [e]
    fresh := fun x hx => by
      rcases List.mem_append.mp hx with hx | hx
      · exact Nat.lt_succ_of_lt (h.fresh x hx)
      · rw [List.mem_singleton.mp hx]; exact Nat.lt_succ_self _
    blocks := fun x d hd => by
      dsimp only at hd
      by_cases e : x = cur
      · subst e
        rw [update_self] at hd
        cases hd
        exact (h.blocks x c hc).relink _ _
      · rw [update_of_ne e] at hd
        by_cases e' : x = s.fresh
        · subst e'
          rw [update_self] at hd
          cases hd
          rw [h.gone _ h.fresh_none]
          exact hb
        · rw [update_of_ne e'] at hd
          exact h.blocks x d hd
    gone := fun x hx => by
      dsimp only at hx
      by_cases e : x = cur
      · subst e; simp at hx
      · rw [update_of_ne e] at hx
        by_cases e' : x = s.fresh
        · subst e'; simp at hx
        · rw [update_of_ne e'] at hx
          exact h.gone x hx
    live := h.live
    default := h.default }

theorem createMemoryBlock_inv {size : Nat} (h : Inv s live l st) (hsize : blockHeaderSize + size < 2 ^ 64) :
    ∃ s' b, createMemoryBlock size true s = .ok () s' ∧ Inv s' live (l ++ [s.fresh]) st ∧
      s'.firstBlock = s.firstBlock ∧ s'.currentBlock = some s.fresh ∧ s'.heap s.fresh = some b ∧
      b.offset = 0 ∧ b.blockSize = size ∧ sizes s'.heap = update (sizes s.heap) s.fresh (some size) ∧
      s'.defaultBlockSize = s.defaultBlockSize := by
  obtain ⟨l', cur, c, rfl, hcur, hc⟩ := h.current
  have hne : s.fresh ≠ cur := fun e => Nat.lt_irrefl _ (h.fresh s.fresh (by simp [e]))
  refine ⟨_, ⟨size, 0, none, some cur, 0, 0, blockHeaderSize + size, fun _ => .undef⟩,
    createMemoryBlock_eq h hcur hc hsize, h.grow hcur hc (.fresh hsize) rfl rfl, rfl, rfl, ?_, rfl, rfl, ?_, rfl⟩
  · dsimp only
    rw [update_of_ne hne, update_self]
  · refine (sizes_same (c := { c with next := some s.fresh }) ((update_of_ne hne.symm _ _).trans hc) rfl).trans ?_
    rw [sizes_update]
    rfl

theorem chooseBlock_eq {size cur : Nat} {b : Block} (avail : Bool) (hcur : s.currentBlock = some cur)
    (hb : s.heap cur = some b) :
    chooseBlock size avail s =
      if size64 (size + unitHeaderSize : Nat) < size64 ((b.blockSize : Int) - b.offset) then .ok () s
      else if size64 (size + unitHeaderSize : Nat) ≥ s.defaultBlockSize then
        createMemoryBlock (size64 (size + unitHeaderSize : Nat)) avail s
      else createMemoryBlock s.defaultBlockSize avail s := by
  unfold chooseBlock
  simp only [run_bind, run_get, hcur, load_some hb]
  split
  · rfl
  · split <;> rfl

/-- The size of a block made for a unit of `size` bytes. -/
def newSize (s : Pool) (size : Nat) : Nat := max (size + unitHeaderSize) s.defaultBlockSize

/-- Where nothing wraps: the current block, or a new one that holds the unit. -/
theorem Inv.choose {size cur : Nat} {b : Block} (h : Inv s live l st) (avail : Bool) (hcur : s.currentBlock = some cur)
    (hb : s.heap cur = some b) (hsize : size + unitHeaderSize + blockHeaderSize < 2 ^ 64) :
    chooseBlock size avail s =
      if size + unitHeaderSize < b.blockSize - b.offset then .ok () s else createMemoryBlock (newSize s size) avail s := by
  have hneed : size64 (size + unitHeaderSize : Nat) = size + unitHeaderSize := size64_natCast (by omega)
  rw [chooseBlock_eq avail hcur hb, hneed, (h.blocks cur b hb).room, newSize]
  split
  · rfl
  · split
    · next hbig => rw [Nat.max_eq_left hbig]
    · next hbig => rw [Nat.max_eq_right (Nat.le_of_not_le hbig)]

theorem Inv.newSize_lt {size : Nat} (h : Inv s live l st) (hsize : size + unitHeaderSize + blockHeaderSize < 2 ^ 64) :
    blockHeaderSize + newSize s size < 2 ^ 64 := by
  have hdefault := h.default
  unfold newSize
  omega

/-- The unit goes on top of the current block. -/
theorem addUnit_inv {size cur : Nat} {b : Block} (h : Inv s live l st) (hcur : s.currentBlock = some cur)
    (hb : s.heap cur = some b) (hroom : b.offset + (unitHeaderSize + size) ≤ b.blockSize) :
    ∃ s', addUnit size s = .ok (unitOf cur (b.offset, size)).ptr s' ∧
      Inv s' (unitOf cur (b.offset, size) :: live) l (update st cur (⟨size, true⟩ :: st cur)) ∧
      s'.firstBlock = s.firstBlock ∧ sizes s'.heap = sizes s.heap ∧ s'.defaultBlockSize = s.defaultBlockSize := by
  have hok := h.blocks cur b hb
  have hbytes := hok.bytes
  have hsmall := hok.small
  have hlen := hok.length_le
  have hcount := hok.allocated
  have hpos : 0 < unitHeaderSize := by decide
  have hin : blockHeaderSize + b.offset + unitHeaderSize ≤ b.bytes := by omega
  have h₁ : size64 (b.numberOfAllocated + 1 : Nat) = b.numberOfAllocated + 1 := size64_natCast (by omega)
  have h₂ : size64 (unitHeaderSize + size : Nat) = unitHeaderSize + size := size64_natCast (by omega)
  have h₃ : size64 (b.offset + (unitHeaderSize + size) : Nat) = b.offset + (unitHeaderSize + size) :=
    size64_natCast (by omega)
  have hrun : addUnit size s = .ok ⟨cur, blockHeaderSize + b.offset + unitHeaderSize⟩
      { s with heap := update s.heap cur (some { b with
          mem := putUnit b.mem (blockHeaderSize + b.offset) ⟨size, cur⟩
          numberOfAllocated := b.numberOfAllocated + 1
          offset := b.offset + (unitHeaderSize + size) }) } := by
    unfold addUnit writeUnit
    simp only [run_bind, run_get, hcur, load_some hb, hin, if_true, store, hb, update_self, update_idem, h₁, h₂, h₃]
    rfl
  refine ⟨_, hrun, h.setBlock hb rfl rfl (hok.push hroom) ?_ ?_, rfl, sizes_same hb rfl, rfl⟩
  · rw [List.filter_cons_of_pos (by simp [unitOf]), spans_live, List.map_cons, ← hok.offset]
    exact (h.live cur).cons _
  · intro x hx
    rw [List.filter_cons_of_neg]
    rw [decide_eq_true_eq]
    exact hx.symm

theorem Inv.last {l' : List Nat} {cur : Nat} (h : Inv s live (l' ++ [cur]) st) :
    ∃ b, s.currentBlock = some cur ∧ s.heap cur = some b := by
  obtain ⟨l'', cur', b, he, hcur, hb⟩ := h.current
  obtain ⟨-, hlast⟩ := List.append_inj' he rfl
  rw [List.singleton_inj.mp hlast]
  exact ⟨b, hcur, hb⟩

/-- The unit goes to the current block where it has room, else to a new block, or the call throws. -/
theorem allocate_spec {sizeofT n cur : Nat} {l' : List Nat} {b : Block} (h : Inv s live (l' ++ [cur]) st)
    (hb : s.heap cur = some b) (hv : n * sizeofT + unitHeaderSize + blockHeaderSize < 2 ^ 64) (avail : Bool) :
    if n * sizeofT + unitHeaderSize < b.blockSize - b.offset then
      ∃ s', allocate sizeofT n avail s = .ok (unitOf cur (b.offset, n * sizeofT)).ptr s' ∧
        Inv s' (unitOf cur (b.offset, n * sizeofT) :: live) (l' ++ [cur]) (update st cur (⟨n * sizeofT, true⟩ :: st cur)) ∧
        s'.firstBlock = s.firstBlock ∧ sizes s'.heap = sizes s.heap ∧ s'.defaultBlockSize = s.defaultBlockSize
    else if avail = true then
      ∃ s', allocate sizeofT n avail s = .ok (unitOf s.fresh (0, n * sizeofT)).ptr s' ∧
        Inv s' (unitOf s.fresh (0, n * sizeofT) :: live) (l' ++ [cur] ++ [s.fresh])
          (update st s.fresh [⟨n * sizeofT, true⟩]) ∧
        s'.firstBlock = s.firstBlock ∧ sizes s'.heap = update (sizes s.heap) s.fresh (some (newSize s (n * sizeofT))) ∧
        s'.defaultBlockSize = s.defaultBlockSize
    else allocate sizeofT n avail s = .error (.throws "CANNOT_CREATE_BLOCK") s := by
  obtain ⟨b', hcur, hb'⟩ := h.last
  rw [hb] at hb'
  cases hb'
  have hsize : size64 (n * sizeofT : Nat) = n * sizeofT := size64_natCast (by omega)
  unfold allocate allocatesize
  simp only [hsize, run_bind, h.choose avail hcur hb hv]
  by_cases hroom : n * sizeofT + unitHeaderSize < b.blockSize - b.offset
  · have hfit : b.offset + (unitHeaderSize + n * sizeofT) ≤ b.blockSize := by omega
    obtain ⟨s', hadd, hinv, hrest⟩ := addUnit_inv h hcur hb hfit
    simp only [if_pos hroom, hadd]
    exact ⟨s', rfl, hinv, hrest⟩
  · simp only [if_neg hroom]
    cases avail with
    | false => simp only [createMemoryBlock_fails, Bool.false_eq_true, if_false]
    | true =>
      obtain ⟨s₁, b₁, hrun, hinv₁, hfirst₁, hcur₁, hb₁, hoff, hsz, hsizes₁, hdefault₁⟩ :=
        createMemoryBlock_inv h (h.newSize_lt hv)
      have hroom₁ : b₁.offset + (unitHeaderSize + n * sizeofT) ≤ b₁.blockSize := by
        unfold newSize at hsz
        omega
      obtain ⟨s', hadd, hinv, hfirst, hsizes, hdefault⟩ := addUnit_inv hinv₁ hcur₁ hb₁ hroom₁
      rw [hoff, h.gone _ h.fresh_none] at hinv
      rw [hoff] at hadd
      simp only [if_true, hrun, hadd]
      exact ⟨s', rfl, hinv, hfirst.trans hfirst₁, hsizes.trans hsizes₁, hdefault.trans hdefault₁⟩

/-- Where the unit goes does not matter. -/
theorem allocate_result {sizeofT n : Nat} (h : Inv s live l st)
    (hv : n * sizeofT + unitHeaderSize + blockHeaderSize < 2 ^ 64) (avail : Bool) :
    allocate sizeofT n avail s = .error (.throws "CANNOT_CREATE_BLOCK") s ∨
      ∃ s' id off l' st', allocate sizeofT n avail s = .ok (unitOf id (off, n * sizeofT)).ptr s' ∧
        Inv s' (unitOf id (off, n * sizeofT) :: live) l' st' ∧ s'.defaultBlockSize = s.defaultBlockSize := by
  obtain ⟨k, cur, b, rfl, -, hb⟩ := h.current
  have hspec := allocate_spec h hb hv avail
  split at hspec
  · obtain ⟨s', hrun, hinv, -, -, hdefault⟩ := hspec
    exact Or.inr ⟨s', _, _, _, _, hrun, hinv, hdefault⟩
  · split at hspec
    · obtain ⟨s', hrun, hinv, -, -, hdefault⟩ := hspec
      exact Or.inr ⟨s', _, _, _, _, hrun, hinv, hdefault⟩
    · exact Or.inl hspec

/-! ## Freeing -/

/-- A live unit is a live slot of its block. -/
theorem Inv.unit {u : Live} (h : Inv s live l st) (hu : u ∈ live) :
    ∃ b e, s.heap u.ptr.block = some b ∧ e ∈ spans unitHeaderSize (st u.ptr.block) ∧ u = unitOf u.ptr.block e := by
  have hmem : u ∈ live.filter fun v => v.ptr.block = u.ptr.block := List.mem_filter.mpr ⟨hu, by simp⟩
  obtain ⟨e, he, hue⟩ := List.mem_map.mp ((h.live _).subset hmem)
  cases hb : s.heap u.ptr.block with
  | none => rw [h.gone _ hb] at he; cases he
  | some b => exact ⟨b, e, rfl, he, hue.symm⟩

/-- Where it lies in the arena of its block. -/
theorem Inv.slot {u : Live} (h : Inv s live l st) (hu : u ∈ live) :
    ∃ b a r, s.heap u.ptr.block = some b ∧ st u.ptr.block = a ++ ⟨u.length, true⟩ :: r ∧
      u = unitOf u.ptr.block (height unitHeaderSize r, u.length) := by
  obtain ⟨b, e, hb, he, hue⟩ := h.unit hu
  obtain ⟨a, r, hst, hstart⟩ := spans_split he
  have hlen : u.length = e.2 := by rw [hue]; rfl
  refine ⟨b, a, r, hb, ?_, ?_⟩
  · rw [hst, hlen]
  · rw [hlen, ← hstart]
    exact hue

theorem filter_erase_same {live : List Live} {u : Live} (hu : u ∈ live) :
    (live.filter fun v => v.ptr.block = u.ptr.block).Perm
    (u :: (live.erase u).filter fun v => v.ptr.block = u.ptr.block) := by
  have := (List.perm_cons_erase hu).filter fun v => v.ptr.block = u.ptr.block
  rwa [List.filter_cons_of_pos (by simp)] at this

theorem filter_erase_other {live : List Live} {u : Live} (hu : u ∈ live) {x : Nat} (hx : x ≠ u.ptr.block) :
    ((live.erase u).filter fun v => v.ptr.block = x).Perm (live.filter fun v => v.ptr.block = x) := by
  have := (List.perm_cons_erase hu).filter fun v => v.ptr.block = x
  rw [List.filter_cons_of_neg (by simpa using hx.symm)] at this
  exact this.symm

theorem deallocate_eq {u : Live} (h : Inv s live l st) (hu : u ∈ live) :
    deallocate (some u.ptr) s =
      (releaseUnit ⟨u.ptr.block, u.ptr.off - unitHeaderSize⟩ ⟨u.length, u.ptr.block⟩ >>= fun _ =>
        removeIfUnused u.ptr.block) s := by
  obtain ⟨b, e, hb, he, hue⟩ := h.unit hu
  have hhead := (h.blocks _ b hb).headers e he
  have hoff : u.ptr.off = blockHeaderSize + e.1 + unitHeaderSize := by rw [hue]; rfl
  have hlen : u.length = e.2 := by rw [hue]; rfl
  have hread : readUnit ⟨u.ptr.block, u.ptr.off - unitHeaderSize⟩ s = .ok ⟨u.length, u.ptr.block⟩ s := by
    unfold readUnit
    rw [run_bind, load_some hb]
    simp only [hoff, Nat.add_sub_cancel, hhead, hlen]
    rfl
  unfold deallocate
  simp only [run_bind, if_neg (by omega : ¬ u.ptr.off < unitHeaderSize), hread]

/-- The client's units of a block after it frees one of them. -/
theorem Inv.erased {u : Live} {e : Nat × Nat} {st' : List Slot} (h : Inv s live l st) (hu : u ∈ live)
    (hue : u = unitOf u.ptr.block e)
    (hperm : (spans unitHeaderSize (st u.ptr.block)).Perm (e :: spans unitHeaderSize st')) :
    ((live.erase u).filter fun v => v.ptr.block = u.ptr.block).Perm
      ((spans unitHeaderSize st').map (unitOf u.ptr.block)) := by
  have := (filter_erase_same hu).symm.trans ((h.live _).trans (hperm.map (unitOf u.ptr.block)))
  rw [List.map_cons, ← hue] at this
  exact this.cons_inv

/-- The top unit comes off its block, another one dies in place. -/
theorem releaseUnit_inv {u : Live} {a r : List Slot} (h : Inv s live l st) (hu : u ∈ live)
    (hst : st u.ptr.block = a ++ ⟨u.length, true⟩ :: r)
    (hue : u = unitOf u.ptr.block (height unitHeaderSize r, u.length)) :
    ∃ s' b', releaseUnit ⟨u.ptr.block, u.ptr.off - unitHeaderSize⟩ ⟨u.length, u.ptr.block⟩ s = .ok () s' ∧
      s'.heap u.ptr.block = some b' ∧ s'.firstBlock = s.firstBlock ∧
      Inv s' (live.erase u) l (update st u.ptr.block (freed a u.length r)) ∧
      sizes s'.heap = sizes s.heap ∧ s'.defaultBlockSize = s.defaultBlockSize := by
  obtain ⟨b, -, hb, -⟩ := h.unit hu
  have hok := h.blocks _ b hb
  have hoff : u.ptr.off = blockHeaderSize + height unitHeaderSize r + unitHeaderSize := congrArg (·.ptr.off) hue
  have hperm := spans_freed unitHeaderSize a r u.length
  rw [← hst] at hperm
  have hback : u.ptr.off - unitHeaderSize + unitHeaderSize = u.ptr.off := by omega
  rw [hst] at hok
  have hoffset := hok.offset
  rw [height_append, height_cons] at hoffset
  dsimp only at hoffset
  have hadd : size64 (unitHeaderSize + u.length : Nat) = unitHeaderSize + u.length := by
    have hbytes := hok.bytes
    have hsmall := hok.small
    have hfits := hok.fits
    exact size64_natCast (by omega)
  have hothers := fun x hx => filter_erase_other hu (x := x) hx
  unfold releaseUnit
  simp only [run_bind, load_some hb, hback, Ptr.mk.injEq, true_and, hadd]
  by_cases htop : blockHeaderSize + b.offset = u.ptr.off + u.length
  · rw [if_pos htop, store_some _ hb]
    have hnil : a = [] := by
      apply spans_top (by decide : 0 < unitHeaderSize) (n := u.length) (b := r)
      rw [← hok.offset]
      omega
    subst hnil
    exact ⟨_, _, rfl, update_self _ _ _, rfl, h.setBlock hb rfl rfl hok.pop (h.erased hu hue hperm) hothers,
      sizes_same hb rfl, rfl⟩
  · rw [if_neg htop, store_some _ hb]
    cases a with
    | nil =>
      rw [height_nil] at hoffset
      omega
    | cons x a =>
      exact ⟨_, _, rfl, update_self _ _ _, rfl, h.setBlock hb rfl rfl hok.kill (h.erased hu hue hperm) hothers,
        sizes_same hb rfl, rfl⟩

theorem mem_around {a r : List Nat} {id : Nat} (h : (a ++ id :: r).Nodup) (x : Nat) :
    x ∈ a ++ r ↔ x ∈ a ++ id :: r ∧ x ≠ id := by
  have hia : id ∉ a := fun hm => (List.nodup_append.mp h).2.2 id hm id (by simp) rfl
  rw [and_comm, ← h.mem_erase_iff, List.erase_append_right _ hia, List.erase_cons_head]

/-- What freeing the block `id` leaves, its neighbours relinked before. -/
theorem Inv.drop {a r : List Nat} {id : Nat} (s₁ : Pool) (h : Inv s live (a ++ id :: r) st)
    (hnil : spans unitHeaderSize (st id) = []) (hne : a ++ r ≠ [])
    (hchain : Doubly (nextOf s₁.heap) (prevOf s₁.heap) s₁.firstBlock s₁.currentBlock (a ++ r))
    (hfresh : s₁.fresh = s.fresh) (hdefault : s₁.defaultBlockSize = s.defaultBlockSize)
    (hsame : ∀ x, Relinked (s.heap x) (s₁.heap x)) :
    Inv { s₁ with heap := update s₁.heap id none } live (a ++ r) (update st id []) where
  chain := by
    have hid : ∀ x ∈ a ++ r, x ≠ id := fun x hx => ((mem_around (doubly_nodup h.chain) x).mp hx).2
    apply doubly_congr hchain
    · intro x hx
      rw [nextOf_update, update_of_ne (hid x hx)]
    · intro x hx
      rw [prevOf_update, update_of_ne (hid x hx)]
  nonempty := hne
  heap x := by
    rw [mem_around (doubly_nodup h.chain) x, h.heap x]
    by_cases e : x = id
    · subst e; simp
    · obtain ⟨n, p, hx⟩ := hsame x
      dsimp only
      rw [update_of_ne e, hx]
      simp [e]
  fresh x hx := by
    dsimp only
    rw [hfresh]
    exact h.fresh x ((mem_around (doubly_nodup h.chain) x).mp hx).1
  blocks x b hb := by
    dsimp only at hb
    by_cases e : x = id
    · subst e; simp at hb
    · obtain ⟨n, p, hx⟩ := hsame x
      rw [update_of_ne e, hx, Option.map_eq_some_iff] at hb
      obtain ⟨c, hc, rfl⟩ := hb
      rw [update_of_ne e]
      exact (h.blocks x c hc).relink _ _
  gone x hx := by
    dsimp only at hx
    by_cases e : x = id
    · subst e; exact update_self _ _ _
    · obtain ⟨n, p, hx'⟩ := hsame x
      rw [update_of_ne e, hx', Option.map_eq_none_iff] at hx
      rw [update_of_ne e]
      exact h.gone x hx
  live x := by
    by_cases e : x = id
    · subst e
      rw [update_self]
      have := h.live x
      rwa [hnil] at this
    · rw [update_of_ne e]
      exact h.live x
  default := by
    dsimp only
    rw [hdefault]; exact h.default

/-- The block has gone, and the others have the sizes they had. -/
def Dropped (s s' : Pool) (id : Nat) : Prop :=
  sizes s'.heap = update (sizes s.heap) id none ∧ s'.defaultBlockSize = s.defaultBlockSize

theorem dropped {heap heap' : Nat → Option Block} {id : Nat} (h : ∀ x, Relinked (heap x) (heap' x)) :
    sizes (update heap' id none) = update (sizes heap) id none := by
  rw [sizes_update, sizes_relinked h]
  rfl

theorem removeFirst_inv {id y : Nat} {r : List Nat} (h : Inv s live (id :: y :: r) st)
    (hnil : spans unitHeaderSize (st id) = []) :
    ∃ s', removeBlock id s = .ok () s' ∧ Inv s' live (y :: r) (update st id []) ∧ Dropped s s' id := by
  obtain ⟨b, hb⟩ := (h.heap id).mp (by simp)
  obtain ⟨c, hc⟩ := (h.heap y).mp (by simp)
  have hchain := h.chain
  have hfirst : s.firstBlock = some id := doubly_first hchain
  rw [hfirst] at hchain
  obtain ⟨hnext, hchain'⟩ := doubly_unlink_first hchain
  rw [nextOf_some hb] at hnext
  have hrun : removeBlock id s = .ok () { s with
      firstBlock := some y
      heap := update (update s.heap y (some { c with prev := none })) id none } := by
    unfold removeBlock free
    simp only [run_bind, run_get, run_set, load_some hb, hfirst, if_true, hnext, store, hc, run_modify]
  have hsame := relinked_update hc (d := { c with prev := none }) ⟨c.next, none, rfl⟩ fun x _ => relinked_refl (s.heap x)
  refine ⟨_, hrun, Inv.drop (a := []) ⟨update s.heap y (some { c with prev := none }), _, some y, _, _⟩ h hnil (by simp)
    ?_ rfl rfl hsame, dropped hsame, rfl⟩
  apply doubly_congr hchain'
  · intro x _
    rw [nextOf_update, Option.bind_some, ← nextOf_some hc, update_eq_self]
  · intro x _
    rw [prevOf_update]; rfl

theorem removeLast_inv {id y : Nat} {a : List Nat} (h : Inv s live (a ++ [y, id]) st)
    (hnil : spans unitHeaderSize (st id) = []) :
    ∃ s', removeBlock id s = .ok () s' ∧ Inv s' live (a ++ [y]) (update st id []) ∧
      s'.firstBlock = s.firstBlock ∧ Dropped s s' id := by
  obtain ⟨b, hb⟩ := (h.heap id).mp (by simp)
  obtain ⟨c, hc⟩ := (h.heap y).mp (by simp)
  have hchain := h.chain
  have hlast := doubly_last hchain
  rw [List.getLast?_append, List.getLast?_cons_cons, List.getLast?_singleton, Option.some_or] at hlast
  have hnotFirst : some id ≠ s.firstBlock := by
    rw [doubly_first hchain]
    have hn := doubly_nodup hchain
    cases a with
    | nil => simpa [eq_comm] using (List.nodup_cons.mp hn).1
    | cons x a => simpa using fun e : id = x => (List.nodup_cons.mp hn).1 (by simp [e])
  rw [hlast] at hchain
  obtain ⟨hprev, hchain'⟩ := doubly_unlink_last hchain
  rw [prevOf_some hb] at hprev
  have hrun : removeBlock id s = .ok () { s with
      currentBlock := some y
      heap := update (update s.heap y (some { c with next := none })) id none } := by
    unfold removeBlock free
    simp only [run_bind, run_get, run_set, load_some hb, hnotFirst, hlast, if_true, if_false, hprev, store, hc,
      run_modify]
  rw [show a ++ [y, id] = a ++ [y] ++ id :: [] by simp] at h
  have hsame := relinked_update hc (d := { c with next := none }) ⟨none, c.prev, rfl⟩ fun x _ => relinked_refl (s.heap x)
  have hdrop := h.drop ⟨update s.heap y (some { c with next := none }), s.fresh, s.firstBlock, some y, s.defaultBlockSize⟩
    hnil (by simp) ?_ rfl rfl hsame
  · rw [List.append_nil] at hdrop
    exact ⟨_, hrun, hdrop, rfl, dropped hsame, rfl⟩
  · rw [List.append_nil]
    apply doubly_congr hchain'
    · intro x _
      rw [nextOf_update]; rfl
    · intro x _
      rw [prevOf_update, Option.bind_some, ← prevOf_some hc, update_eq_self]

theorem removeMid_inv {id y z : Nat} {a r : List Nat} (h : Inv s live (a ++ y :: id :: z :: r) st)
    (hnil : spans unitHeaderSize (st id) = []) :
    ∃ s', removeBlock id s = .ok () s' ∧ Inv s' live (a ++ y :: z :: r) (update st id []) ∧
      s'.firstBlock = s.firstBlock ∧ Dropped s s' id := by
  obtain ⟨b, hb⟩ := (h.heap id).mp (by simp)
  obtain ⟨c, hc⟩ := (h.heap y).mp (by simp)
  obtain ⟨d, hd⟩ := (h.heap z).mp (by simp)
  have hchain := h.chain
  obtain ⟨-, hn, hapart⟩ := List.nodup_append.mp (doubly_nodup hchain)
  simp only [List.nodup_cons, List.mem_cons, not_or] at hn
  have hnotFirst : some id ≠ s.firstBlock := by
    rw [doubly_first hchain]
    cases a with
    | nil => simpa using Ne.symm hn.1.1
    | cons x a => simpa using (hapart x (by simp) id (by simp)).symm
  have hnotLast : some id ≠ s.currentBlock := by
    rw [doubly_last hchain, List.getLast?_append, List.getLast?_cons_cons, List.getLast?_cons_cons,
      List.getLast?_eq_some_getLast (List.cons_ne_nil z r), Option.some_or]
    intro e
    rcases List.mem_cons.mp (List.getLast_mem (List.cons_ne_nil z r)) with hz | hr
    · exact hn.2.1.1 ((Option.some.inj e).trans hz)
    · exact hn.2.1.2 (Option.some.inj e ▸ hr)
  obtain ⟨hprev, hnext, hchain'⟩ := doubly_unlink_mid hchain
  rw [prevOf_some hb] at hprev
  rw [nextOf_some hb] at hnext
  have hyz : z ≠ y := Ne.symm hn.1.2.1
  have hrun : removeBlock id s = .ok () { s with
      heap := update (update (update s.heap y (some { c with next := some z })) z
        (some { d with prev := some y })) id none } := by
    unfold removeBlock free
    simp only [run_bind, run_get, hnotFirst, hnotLast, if_false, hprev, hnext, store, load, Option.bind_some, hc, hd, hb,
      update_of_ne (Ne.symm hn.1.1), update_of_ne hyz, run_modify]
  rw [show a ++ y :: id :: z :: r = a ++ [y] ++ id :: z :: r by simp] at h
  have hsame := relinked_update hd (d := { d with prev := some y }) ⟨d.next, some y, rfl⟩ fun x _ =>
    relinked_update hc (d := { c with next := some z }) ⟨some z, c.prev, rfl⟩ (fun x _ => relinked_refl (s.heap x)) x
  have hdrop := h.drop { s with
    heap := update (update s.heap y (some { c with next := some z })) z (some { d with prev := some y }) }
    hnil (by simp) ?_ rfl rfl hsame
  · rw [List.append_assoc] at hdrop
    exact ⟨_, hrun, hdrop, rfl, dropped hsame, rfl⟩
  · rw [List.append_assoc]
    apply doubly_congr hchain'
    · intro x _
      rw [nextOf_update, nextOf_update, Option.bind_some, Option.bind_some]
      by_cases e : x = z
      · subst e
        rw [update_self, update_of_ne hyz, nextOf_some hd]
      · rw [update_of_ne e]
    · intro x _
      rw [prevOf_update, prevOf_update, Option.bind_some, Option.bind_some, ← prevOf_some hc, update_eq_self]

/-- The block leaves the chain, whichever end of it it is at. -/
theorem removeBlock_inv {id : Nat} {a r : List Nat} (h : Inv s live (a ++ id :: r) st)
    (hnil : spans unitHeaderSize (st id) = []) (hmany : a ++ r ≠ []) :
    ∃ s', removeBlock id s = .ok () s' ∧ Inv s' live (a ++ r) (update st id []) ∧
      (some id ≠ s.firstBlock → s'.firstBlock = s.firstBlock) ∧ Dropped s s' id := by
  have hfirst := doubly_first h.chain
  rcases List.eq_nil_or_concat' a with rfl | ⟨a, y, rfl⟩
  · cases r with
    | nil => exact absurd rfl hmany
    | cons y r =>
      obtain ⟨s', hrun, hinv, hdrop⟩ := removeFirst_inv h hnil
      exact ⟨s', hrun, hinv, fun hne => absurd hfirst.symm hne, hdrop⟩
  · rw [List.append_assoc] at h ⊢
    cases r with
    | nil =>
      obtain ⟨s', hrun, hinv, hsame, hdrop⟩ := removeLast_inv h hnil
      exact ⟨s', hrun, hinv, fun _ => hsame, hdrop⟩
    | cons z r =>
      obtain ⟨s', hrun, hinv, hsame, hdrop⟩ := removeMid_inv h hnil
      exact ⟨s', hrun, hinv, fun _ => hsame, hdrop⟩

/-! ## Runs -/

theorem Inv.single (h : Inv s live l st) (hone : s.currentBlock = s.firstBlock) : ∀ id ∈ l, some id = s.firstBlock := by
  have hnodup := doubly_nodup h.chain
  rw [doubly_last h.chain, doubly_first h.chain] at hone
  rw [doubly_first h.chain]
  cases l with
  | nil => exact absurd rfl h.nonempty
  | cons a r =>
    cases r with
    | nil => intro id hid; rw [List.mem_singleton.mp hid]; rfl
    | cons b r =>
      rw [List.getLast?_cons_cons, List.head?_cons] at hone
      exact absurd (List.mem_of_getLast? hone) (List.nodup_cons.mp hnodup).1

theorem Inv.many {id : Nat} {x y : List Nat} (h : Inv s live (x ++ id :: y) st) :
    s.currentBlock ≠ s.firstBlock ↔ x ++ y ≠ [] := by
  constructor
  · intro hmany hnil
    obtain ⟨rfl, rfl⟩ := List.append_eq_nil_iff.mp hnil
    exact hmany ((doubly_last h.chain).trans (doubly_first h.chain).symm)
  · intro hne hone
    obtain ⟨z, hz⟩ := List.exists_mem_of_ne_nil _ hne
    obtain ⟨hz, hzid⟩ := (mem_around (doubly_nodup h.chain) z).mp hz
    exact hzid (Option.some.inj ((h.single hone z hz).trans (h.single hone id (by simp)).symm))

/-- The unit is freed in its block, and the block leaves the chain when nothing in it is live and it is not the
    only one. -/
theorem deallocate_spec {u : Live} {x y : List Nat} {a r : List Slot} (h : Inv s live (x ++ u.ptr.block :: y) st)
    (hu : u ∈ live) (hst : st u.ptr.block = a ++ ⟨u.length, true⟩ :: r)
    (hue : u = unitOf u.ptr.block (height unitHeaderSize r, u.length)) :
    ∃ s', deallocate (some u.ptr) s = .ok () s' ∧
      if x ++ y ≠ [] ∧ spans unitHeaderSize (freed a u.length r) = [] then
        Inv s' (live.erase u) (x ++ y) (update st u.ptr.block []) ∧
          (some u.ptr.block ≠ s.firstBlock → s'.firstBlock = s.firstBlock) ∧ Dropped s s' u.ptr.block
      else
        Inv s' (live.erase u) (x ++ u.ptr.block :: y) (update st u.ptr.block (freed a u.length r)) ∧
          s'.firstBlock = s.firstBlock ∧ sizes s'.heap = sizes s.heap ∧ s'.defaultBlockSize = s.defaultBlockSize := by
  obtain ⟨s₁, b₁, hrelease, hb₁, hfirst, hinv, hsizes, hdefault⟩ := releaseUnit_inv h hu hst hue
  have hunused := (hinv.blocks _ b₁ hb₁).unused
  rw [update_self] at hunused
  have hrun : deallocate (some u.ptr) s =
      if x ++ y ≠ [] ∧ spans unitHeaderSize (freed a u.length r) = [] then removeBlock u.ptr.block s₁ else .ok () s₁ := by
    rw [deallocate_eq h hu, run_bind, hrelease]
    unfold removeIfUnused
    simp only [run_bind, run_get, load_some hb₁, hunused, hinv.many]
    split <;> rfl
  rw [hrun]
  split
  · next hgo =>
    obtain ⟨s₂, hremove, hinv₂, hkeep, hdrop⟩ := removeBlock_inv hinv (by rw [update_self]; exact hgo.2) hgo.1
    rw [update_idem] at hinv₂
    rw [hfirst] at hkeep
    exact ⟨s₂, hremove, hinv₂, hkeep, by rw [← hsizes]; exact hdrop.1, hdrop.2.trans hdefault⟩
  · exact ⟨s₁, rfl, hinv, hfirst, hsizes, hdefault⟩

/-- A new pool has one block, and its size with the header did not wrap. -/
theorem construct_eq {blockSize : Nat} {s : Pool} (hsize : blockSize < 2 ^ 64)
    (h : construct blockSize true = .ok () s) :
    blockHeaderSize + blockSize < 2 ^ 64 ∧
      s = ⟨update (fun _ => none) 0 (some ⟨blockSize, 0, none, none, 0, 0, blockHeaderSize + blockSize, fun _ => .undef⟩), 1,
        some 0, some 0, blockSize⟩ := by
  have hheader : blockHeaderSize = 48 := rfl
  unfold construct createMemoryBlock at h
  simp only [Bool.not_true, Bool.false_eq_true, if_false] at h
  by_cases hwrap : size64 (blockHeaderSize + blockSize : Nat) < blockHeaderSize
  · rw [if_pos hwrap] at h
    cases h
  · rw [if_neg hwrap] at h
    have hsmall : blockHeaderSize + blockSize < 2 ^ 64 := by
      unfold size64 at hwrap
      omega
    rw [size64_natCast hsmall] at h
    cases h
    exact ⟨hsmall, rfl⟩

theorem construct_inv {blockSize : Nat} {s : Pool} (hsize : blockSize < 2 ^ 64)
    (h : construct blockSize true = .ok () s) : Inv s [] [0] (fun _ => []) ∧ Used s [0] fun _ => [] := by
  obtain ⟨hsmall, rfl⟩ := construct_eq hsize h
  refine ⟨⟨⟨?_, ?_⟩, by simp, ?_, ?_, ?_, fun _ _ => rfl, fun _ => List.Perm.refl _, hsmall⟩, ?_⟩
  · simp [nextOf]
  · simp [prevOf]
  · intro id
    by_cases e : id = 0
    · subst e; simp
    · simp [e]
  · intro id hid
    rw [List.mem_singleton.mp hid]; exact Nat.one_pos
  · intro id b hb
    by_cases e : id = 0
    · subst e
      simp only [update_self] at hb
      cases hb
      exact .fresh hsmall
    · simp [update_of_ne e] at hb
  · intro id hid hne
    rw [List.mem_singleton.mp hid] at hne
    exact absurd rfl hne

theorem step_allocate {sizeofT n : Nat} {avail : Bool} {c : Client} {p : Ptr} {s' : Pool}
    (h : allocate sizeofT n avail c.pool = .ok p s') :
    step sizeofT c (.allocate n avail) = .ok ⟨s', ⟨p, n * sizeofT⟩ :: c.live⟩ := by
  unfold step
  simp only [h]

theorem step_allocate_throws {sizeofT n : Nat} {avail : Bool} {c : Client} {what : String}
    (h : allocate sizeofT n avail c.pool = .error (.throws what) c.pool) :
    step sizeofT c (.allocate n avail) = .ok c := by
  unfold step
  simp only [h]

theorem allocate_inv {sizeofT n : Nat} (avail : Bool) {c : Client} (h : Inv c.pool c.live l st) (hu : Used c.pool l st)
    (hv : n * sizeofT + unitHeaderSize + blockHeaderSize < 2 ^ 64) :
    ∃ c' l' st', step sizeofT c (.allocate n avail) = .ok c' ∧ Inv c'.pool c'.live l' st' ∧ Used c'.pool l' st' := by
  obtain ⟨l', cur, b, rfl, hcur, hb⟩ := h.current
  -- the block that has the new unit is used, the others are as before
  have hused : ∀ {s' : Pool} {k : List Nat} {id : Nat} {top : List Slot},
      (∀ x ∈ k, x ≠ id → x ∈ l' ++ [cur]) → s'.firstBlock = c.pool.firstBlock →
        Used s' k (update st id (⟨n * sizeofT, true⟩ :: top)) := by
    intro s' k id top hk hfirst x hx hne
    rw [hfirst] at hne
    by_cases e : x = id
    · subst e
      rw [update_self, spans_live]
      exact List.cons_ne_nil _ _
    · rw [update_of_ne e]
      exact hu x (hk x hx e) hne
  have hspec := allocate_spec h hb hv avail
  split at hspec
  · obtain ⟨s', hrun, hinv, hfirst, -⟩ := hspec
    exact ⟨_, _, _, step_allocate hrun, hinv, hused (fun x hx _ => hx) hfirst⟩
  · split at hspec
    · obtain ⟨s', hrun, hinv, hfirst, -⟩ := hspec
      refine ⟨_, _, _, step_allocate hrun, hinv, hused (fun x hx e => ?_) hfirst⟩
      rcases List.mem_append.mp hx with hx | hx
      · exact hx
      · exact absurd (List.mem_singleton.mp hx) e
    · exact ⟨c, _, st, step_allocate_throws hspec, h, hu⟩

theorem step_deallocate {sizeofT : Nat} {c : Client} {u : Live} {s' : Pool} (h : deallocate (some u.ptr) c.pool = .ok () s') :
    step sizeofT c (.deallocate u) = .ok ⟨s', c.live.erase u⟩ := by
  unfold step
  simp only [h]

theorem deallocate_inv {sizeofT : Nat} {c : Client} {u : Live} (h : Inv c.pool c.live l st) (hu : Used c.pool l st)
    (hv : u ∈ c.live) :
    ∃ c' l' st', step sizeofT c (.deallocate u) = .ok c' ∧ Inv c'.pool c'.live l' st' ∧ Used c'.pool l' st' := by
  obtain ⟨b, a, r, hb, hst, hue⟩ := h.slot hv
  obtain ⟨x, y, rfl⟩ := List.append_of_mem ((h.heap _).mpr ⟨b, hb⟩)
  obtain ⟨s', hrun, hcase⟩ := deallocate_spec h hv hst hue
  have hothers : ∀ z, ∀ id ∈ x ++ u.ptr.block :: y, some id ≠ c.pool.firstBlock → id ≠ u.ptr.block →
      spans unitHeaderSize (update st u.ptr.block z id) ≠ [] := by
    intro z id hid hne e
    rw [update_of_ne e]
    exact hu id hid hne
  split at hcase
  · next hgo =>
    obtain ⟨hinv, hkeep, -⟩ := hcase
    refine ⟨_, _, _, step_deallocate hrun, hinv, fun id hid hne => ?_⟩
    obtain ⟨hid', hne'⟩ := (mem_around (doubly_nodup h.chain) id).mp hid
    refine hothers _ id hid' ?_ hne'
    by_cases e : some u.ptr.block = c.pool.firstBlock
    · exact fun e' => hne' (Option.some.inj (e'.trans e.symm))
    · rwa [hkeep e] at hne
  · next hgo =>
    obtain ⟨hinv, hfirst, -⟩ := hcase
    refine ⟨_, _, _, step_deallocate hrun, hinv, fun id hid hne => ?_⟩
    by_cases e : id = u.ptr.block
    · subst e
      rw [update_self]
      intro hnil
      exact hgo ⟨hinv.many.mp fun hone => hne (hinv.single hone _ hid), hnil⟩
    · rw [hfirst] at hne
      exact hothers _ id hid hne e

theorem step_write {sizeofT i : Nat} {c : Client} {u : Live} {b : Block} (v : UInt8)
    (hb : c.pool.heap u.ptr.block = some b) :
    step sizeofT c (.write u i v) = .ok ⟨{ c.pool with
      heap := update c.pool.heap u.ptr.block (some { b with mem := update b.mem (u.ptr.off + i) (.data v) }) }, c.live⟩ := by
  unfold step setByte
  simp only [store_some _ hb]

/-- A payload is apart from every header. -/
theorem write_inv {sizeofT i : Nat} {c : Client} {u : Live} (v : UInt8) (h : Inv c.pool c.live l st) (hv : u ∈ c.live)
    (hi : i < u.length) :
    ∃ s', step sizeofT c (.write u i v) = .ok ⟨s', c.live⟩ ∧ Inv s' c.live l st ∧
      s'.firstBlock = c.pool.firstBlock ∧ sizes s'.heap = sizes c.pool.heap ∧
      s'.defaultBlockSize = c.pool.defaultBlockSize := by
  obtain ⟨b, e, hb, he, hue⟩ := h.unit hv
  have hok := h.blocks _ b hb
  have hoff : u.ptr.off = blockHeaderSize + e.1 + unitHeaderSize := by rw [hue]; rfl
  have hlen : u.length = e.2 := by rw [hue]; rfl
  let b' : Block := { b with mem := update b.mem (u.ptr.off + i) (.data v) }
  have hheaders : ∀ f ∈ spans unitHeaderSize (st u.ptr.block),
      unitAt b'.mem (blockHeaderSize + f.1) = some ⟨f.2, u.ptr.block⟩ := by
    intro f hf
    refine (unitAt_congr ?_).trans (hok.headers f hf)
    intro k hk hk'
    apply update_of_ne
    rcases spans_apart he hf with rfl | hapart | hapart <;> omega
  have hok' : BlockOk u.ptr.block b' (st u.ptr.block) :=
    ⟨hok.offset, hok.fits, hok.bytes, hok.small, hok.allocated, hok.deleted, hheaders⟩
  have hinv := h.setBlock hb (rfl : b'.next = b.next) (rfl : b'.prev = b.prev) hok' (h.live _) fun x _ => List.Perm.refl _
  rw [update_eq_self] at hinv
  exact ⟨_, step_write v hb, hinv, rfl, sizes_same hb rfl, rfl⟩

theorem step_inv {sizeofT : Nat} {c : Client} {op : Op} (h : Inv c.pool c.live l st) (hu : Used c.pool l st)
    (hv : Valid sizeofT c op) :
    ∃ c' l' st', step sizeofT c op = .ok c' ∧ Inv c'.pool c'.live l' st' ∧ Used c'.pool l' st' := by
  cases op with
  | allocate n avail => exact allocate_inv avail h hu hv
  | deallocate u => exact deallocate_inv h hu hv
  | write u i v =>
    obtain ⟨s', hs, hinv, hfirst, -⟩ := write_inv v h hv.1 hv.2
    exact ⟨_, l, st, hs, hinv, by rw [Used, hfirst]; exact hu⟩

theorem reach_run {blockSize sizeofT : Nat} {c c' : Client} {ops : List Op} (h : Reach blockSize sizeofT c)
    (hrun : run sizeofT c ops = some c') : Reach blockSize sizeofT c' := by
  induction ops generalizing c with
  | nil => cases hrun; exact h
  | cons op ops ih =>
    unfold run at hrun
    split at hrun
    · rename_i hv
      split at hrun
      · rename_i d hs
        exact ih (h.step op hv hs) hrun
      · cases hrun
    · cases hrun

theorem reach_inv {blockSize sizeofT : Nat} {c : Client} (hsize : blockSize < 2 ^ 64) (h : Reach blockSize sizeofT c) :
    ∃ l st, Inv c.pool c.live l st ∧ Used c.pool l st := by
  induction h with
  | init hc => exact ⟨_, _, construct_inv hsize hc⟩
  | step op _ hv hs ih =>
    obtain ⟨l, st, hinv, hu⟩ := ih
    obtain ⟨c', l', st', hs', hinv', hu'⟩ := step_inv hinv hu hv
    rw [hs] at hs'
    cases hs'
    exact ⟨l', st', hinv', hu'⟩

/-! ## What the units and the blocks are -/

/-- Where the unit's header starts in the data of its block, and where its payload ends. -/
def Live.start (u : Live) : Nat := u.ptr.off - unitHeaderSize - blockHeaderSize

def Live.stop (u : Live) : Nat := u.ptr.off + u.length - blockHeaderSize

structure Contained (c : Client) : Prop where
  blocks : ∀ id b, c.pool.heap id = some b → b.offset ≤ b.blockSize ∧ blockHeaderSize + b.blockSize = b.bytes
  inside : ∀ u ∈ c.live, ∃ b, c.pool.heap u.ptr.block = some b ∧ blockHeaderSize + unitHeaderSize ≤ u.ptr.off ∧
    u.stop ≤ b.offset
  apart : c.live.Pairwise fun u v => u.ptr.block = v.ptr.block → u.stop ≤ v.start ∨ v.stop ≤ u.start
  headers : ∀ u ∈ c.live, ∃ b, c.pool.heap u.ptr.block = some b ∧
    unitAt b.mem (u.ptr.off - unitHeaderSize) = some ⟨u.length, u.ptr.block⟩

theorem unitOf_start (id : Nat) (e : Nat × Nat) : (unitOf id e).start = e.1 := by
  simp only [unitOf, Live.start]
  omega

theorem unitOf_stop (id : Nat) (e : Nat × Nat) : (unitOf id e).stop = e.1 + (unitHeaderSize + e.2) := by
  simp only [unitOf, Live.stop]
  omega

/-- Units apart block by block are apart where they share a block. -/
theorem pairwise_blocks {R : Live → Live → Prop} {live : List Live}
    (h : ∀ id, (live.filter fun u => u.ptr.block = id).Pairwise R) :
    live.Pairwise fun u v => u.ptr.block = v.ptr.block → R u v := by
  induction live with
  | nil => exact List.Pairwise.nil
  | cons u live ih =>
    refine List.pairwise_cons.mpr ⟨?_, ih ?_⟩
    · intro v hv e
      have := h u.ptr.block
      rw [List.filter_cons_of_pos (by simp)] at this
      exact (List.pairwise_cons.mp this).1 v (List.mem_filter.mpr ⟨hv, by simp [e]⟩)
    · intro id
      have := h id
      rw [List.filter_cons] at this
      split at this
      · exact (List.pairwise_cons.mp this).2
      · exact this

theorem Inv.contained {c : Client} (h : Inv c.pool c.live l st) : Contained c where
  blocks id b hb := ⟨(h.blocks id b hb).fits, (h.blocks id b hb).bytes.symm⟩
  inside u hu := by
    obtain ⟨b, e, hb, he, hue⟩ := h.unit hu
    have hoff : u.ptr.off = blockHeaderSize + e.1 + unitHeaderSize := by rw [hue]; rfl
    refine ⟨b, hb, by omega, ?_⟩
    rw [hue, unitOf_stop, (h.blocks _ b hb).offset]
    exact spans_le he
  apart := by
    apply pairwise_blocks (R := fun u v => u.stop ≤ v.start ∨ v.stop ≤ u.start)
    intro id
    refine ((h.live id).pairwise_iff fun huv => huv.symm).mpr (List.pairwise_map.mpr ?_)
    refine (spans_pairwise _).imp ?_
    intro e f hef
    right
    rwa [unitOf_start, unitOf_stop]
  headers u hu := by
    obtain ⟨b, e, hb, he, hue⟩ := h.unit hu
    have hoff : u.ptr.off = blockHeaderSize + e.1 + unitHeaderSize := by rw [hue]; rfl
    have hlen : u.length = e.2 := by rw [hue]; rfl
    refine ⟨b, hb, ?_⟩
    rw [hoff, hlen, Nat.add_sub_cancel]
    exact (h.blocks _ b hb).headers e he

/-- In every reachable state the units lie apart inside their blocks, their headers
    intact, and the next call within the rules goes through. -/
theorem units_contained {blockSize sizeofT : Nat} (hsize : blockSize < 2 ^ 64) {c : Client}
    (h : Reach blockSize sizeofT c) :
    Contained c ∧ ∀ op, Valid sizeofT c op → ∃ c', step sizeofT c op = .ok c' := by
  obtain ⟨l, st, hinv, hu⟩ := reach_inv hsize h
  refine ⟨hinv.contained, ?_⟩
  intro op hv
  obtain ⟨c', _, _, hs, -, -⟩ := step_inv hinv hu hv
  exact ⟨c', hs⟩

/-- Three units of 10 bytes, the first freed out of order, one more on a new block. -/
theorem units_contained_out_of_order :
    ∃ c, Reach 80 1 c ∧ c.live.length = 3 ∧ Contained c ∧ ∀ op, Valid 1 c op → ∃ c', step 1 c op = .ok c' := by
  have hrun : ∃ s c, construct 80 true = .ok () s ∧ c.live.length = 3 ∧ run 1 ⟨s, []⟩
      [.allocate 10 true, .allocate 10 true, .deallocate ⟨⟨0, 64⟩, 10⟩, .allocate 10 true, .allocate 10 true] = some c :=
    ⟨_, _, rfl, rfl, rfl⟩
  obtain ⟨s, c, hs, hlive, hrun⟩ := hrun
  have h := reach_run (.init hs) hrun
  exact ⟨c, h, hlive, units_contained (by decide) h⟩

/-- `l` are the blocks of the pool, from `firstBlock` to `currentBlock`. -/
structure Lifecycle (c : Client) (l : List Nat) : Prop where
  chain : Path (nextOf c.pool.heap) c.pool.firstBlock l none
  current : c.pool.currentBlock = l.getLast?
  inverse : c.pool.firstBlock.bind (prevOf c.pool.heap) = none ∧
    ∀ a ∈ l, ∀ b ∈ l, nextOf c.pool.heap a = some b ↔ prevOf c.pool.heap b = some a
  counts : ∀ id ∈ l, ∃ b, c.pool.heap id = some b ∧ b.numberOfDeleted ≤ b.numberOfAllocated ∧
    b.numberOfAllocated - b.numberOfDeleted = (c.live.filter fun u => u.ptr.block = id).length
  held : ∀ u ∈ c.live, u.ptr.block ∈ l
  freed : ∀ id, id ∈ l ↔ c.pool.heap id ≠ none
  used : ∀ id ∈ l, some id ≠ c.pool.firstBlock → ∃ u ∈ c.live, u.ptr.block = id
  few : l.length ≤ c.live.length + 1
  one : c.live = [] → l.length = 1

theorem Inv.used {c : Client} (h : Inv c.pool c.live l st) (hu : Used c.pool l st) :
    ∀ id ∈ l, some id ≠ c.pool.firstBlock → ∃ u ∈ c.live, u.ptr.block = id := by
  intro id hid hne
  obtain ⟨e, he⟩ := List.exists_mem_of_ne_nil _ (hu id hid hne)
  have := (h.live id).symm.subset (List.mem_map_of_mem he)
  exact ⟨_, (List.mem_filter.mp this).1, rfl⟩

/-- Different blocks hold different units, so all blocks but the first are at most as
    many as the live units. -/
theorem Inv.few {c : Client} (h : Inv c.pool c.live l st) (hu : Used c.pool l st) : l.length ≤ c.live.length + 1 := by
  have hnodup := doubly_nodup h.chain
  have hfirst := doubly_first h.chain
  have hused := h.used hu
  cases l with
  | nil => exact Nat.zero_le _
  | cons a r =>
    obtain ⟨har, hr⟩ := List.nodup_cons.mp hnodup
    have hsub : r ⊆ c.live.map fun u => u.ptr.block := by
      intro id hid
      obtain ⟨u, hul, hub⟩ := hused id (List.mem_cons_of_mem _ hid) (by
        rw [hfirst, List.head?_cons]
        intro e
        exact har (Option.some.inj e ▸ hid))
      exact List.mem_map.mpr ⟨u, hul, hub⟩
    have := (List.subperm_of_subset hr hsub).length_le
    rw [List.length_map] at this
    rw [List.length_cons]
    omega

theorem Inv.lifecycle {c : Client} (h : Inv c.pool c.live l st) (hu : Used c.pool l st) : Lifecycle c l where
  chain := h.chain.1
  current := doubly_last h.chain
  inverse := by
    refine ⟨?_, fun a ha b hb => doubly_inverse h.chain ha hb⟩
    have hchain := h.chain
    rw [doubly_first hchain]
    cases l with
    | nil => rfl
    | cons a r => exact (doubly_links (l := []) hchain).2
  counts id hid := by
    obtain ⟨b, hb⟩ := (h.heap id).mp hid
    have hok := h.blocks id b hb
    have htotal := length_spans unitHeaderSize (st id)
    have hlive := (h.live id).length_eq
    rw [List.length_map] at hlive
    refine ⟨b, hb, ?_⟩
    rw [hlive, hok.allocated, hok.deleted]
    omega
  held u hul := by
    obtain ⟨b, _, hb, -⟩ := h.unit hul
    exact (h.heap _).mpr ⟨b, hb⟩
  freed id := by rw [h.heap id, Option.ne_none_iff_exists']
  used := h.used hu
  few := h.few hu
  one hnil := by
    have := h.few hu
    have := List.length_pos_of_ne_nil h.nonempty
    rw [hnil] at *
    simp only [List.length_nil] at *
    omega

/-- In every reachable state the blocks are one chain, their counters count the live
    units, and every block but the first holds one. -/
theorem blocks_alive {blockSize sizeofT : Nat} (hsize : blockSize < 2 ^ 64) {c : Client} (h : Reach blockSize sizeofT c) :
    ∃ l, Lifecycle c l := by
  obtain ⟨l, st, hinv, hu⟩ := reach_inv hsize h
  exact ⟨l, hinv.lifecycle hu⟩

/-- Two blocks of two units; freeing the first block's leaves the second alone. -/
theorem blocks_alive_first_removed :
    ∃ c, Reach 80 1 c ∧ c.live.length = 1 ∧ c.pool.firstBlock = some 1 ∧ ∃ l, Lifecycle c l := by
  have hrun : ∃ s c, construct 80 true = .ok () s ∧ c.live.length = 1 ∧ c.pool.firstBlock = some 1 ∧ run 1 ⟨s, []⟩
      [.allocate 10 true, .allocate 10 true, .allocate 20 true, .deallocate ⟨⟨0, 64⟩, 10⟩, .deallocate ⟨⟨0, 90⟩, 10⟩] =
        some c :=
    ⟨_, _, rfl, rfl, rfl, rfl⟩
  obtain ⟨s, c, hs, hlive, hfirst, hrun⟩ := hrun
  have h := reach_run (.init hs) hrun
  exact ⟨c, h, hlive, hfirst, blocks_alive (by decide) h⟩

/-- 2^64 - 16 bytes and a header are 0 bytes by the code's count: the unit of 20 bytes is still the
    last of its block, and freeing it gives the block back with the large unit in it. -/
theorem freed_under_a_live_unit :
    ∃ s c, construct 80 true = .ok () s ∧
      [.allocate 40 true, .allocate 20 true, .allocate (2 ^ 64 - 16) true, .deallocate ⟨⟨1, 64⟩, 20⟩].foldlM (step 1)
        ⟨s, []⟩ = .ok c ∧
      c.live = [⟨⟨1, 100⟩, 2 ^ 64 - 16⟩, ⟨⟨0, 64⟩, 40⟩] ∧ c.pool.heap 1 = none ∧ ¬∃ l, Lifecycle c l := by
  have hrun : ∃ s c, construct 80 true = .ok () s ∧
      [.allocate 40 true, .allocate 20 true, .allocate (2 ^ 64 - 16) true, .deallocate ⟨⟨1, 64⟩, 20⟩].foldlM (step 1)
        ⟨s, []⟩ = .ok c ∧
      c.live = [⟨⟨1, 100⟩, 2 ^ 64 - 16⟩, ⟨⟨0, 64⟩, 40⟩] ∧ c.pool.heap 1 = none :=
    ⟨_, _, rfl, rfl, rfl, rfl⟩
  obtain ⟨s, c, hs, hsteps, hlive, hfreed⟩ := hrun
  refine ⟨s, c, hs, hsteps, hlive, hfreed, ?_⟩
  intro hx
  obtain ⟨l, h⟩ := hx
  have hmem : 1 ∈ l := h.held ⟨⟨1, 100⟩, 2 ^ 64 - 16⟩ (by rw [hlive]; exact List.mem_cons_self)
  exact (h.freed 1).mp hmem hfreed

end Wtfsc.MemoryPool
