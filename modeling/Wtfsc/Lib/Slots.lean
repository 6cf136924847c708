/-
  Wtfsc.Lib.Slots — storage for elements: blocks of slots from an allocator.

  A slot is raw or holds an element. `allocate` gives a block of raw slots under an id not
  used before, `construct` makes an element in a slot and `destroy` ends it. A slot
  outside its block, a block given back, and reading or destroying in a raw slot are
  undefined behaviour. A pointer is a block's id and a distance from its start; the null
  pointer is in no block.
  - `Block.of n l`: `n` slots, the first of them holding `l` and the others raw.
  - `construct_of`, `destroy_of`, `load_of`: the operations on such a block.
  - `Keeps`: what a computation that owns one block leaves of the others.
  - `SameBlocks`, `Swaps`: which blocks there are after a computation.
  - `Lost`: a block that is there and that nobody has; who exchanges the own block loses
    none (`lost_swap`), who takes over another's loses the own one (`lost_move`).
  - `constructRaw`, `deallocateRaw`: the operations that also refuse to make an element in
    a slot that holds one, and to give back a block that does.
-/

import Mathlib.Logic.Function.Basic
import Wtfsc.Cpp

namespace Wtfsc.Slots

open Function
open Wtfsc.Cpp

structure Block (T : Type) where
  size : Nat
  cell : Nat → Option T

structure Heap (T : Type) where
  block : Nat → Option (Block T)
  fresh : Nat

structure Ptr where
  block : Option Nat
  off : Nat
  deriving DecidableEq, Repr

variable {T : Type}

def Heap.empty : Heap T := ⟨fun _ => none, 0⟩

def Ptr.null : Ptr := ⟨none, 0⟩

def Ptr.add (p : Ptr) (n : Nat) : Ptr := { p with off := p.off + n }

/-- The difference of two pointers into one block. -/
def Ptr.sub (q p : Ptr) : Exec Nat := if q.block = p.block ∧ p.off ≤ q.off then .ok (q.off - p.off) else .error .ub

@[simp] theorem add_mk (o : Option Nat) (i n : Nat) : (⟨o, i⟩ : Ptr).add n = ⟨o, i + n⟩ := rfl

@[simp] theorem sub_mk (o : Option Nat) (n : Nat) : (⟨o, n⟩ : Ptr).sub ⟨o, 0⟩ = .ok n := if_pos ⟨rfl, Nat.zero_le n⟩

/-! ## The heap -/

def Block.of (n : Nat) (l : List T) : Block T := ⟨n, fun i => l[i]?⟩

def Block.set (blk : Block T) (i : Nat) (o : Option T) : Block T := { blk with cell := update blk.cell i o }

@[simp] theorem of_size (n : Nat) (l : List T) : (Block.of n l).size = n := rfl
@[simp] theorem of_cell (n : Nat) (l : List T) (i : Nat) : (Block.of n l).cell i = l[i]? := rfl
@[simp] theorem set_size (blk : Block T) (i : Nat) (o : Option T) : (blk.set i o).size = blk.size := rfl

@[ext] theorem block_ext {x y : Block T} (hs : x.size = y.size) (hc : ∀ i, x.cell i = y.cell i) : x = y := by
  cases x
  cases y
  simp only [Block.mk.injEq]
  exact ⟨hs, funext hc⟩

theorem getElem?_snoc (l : List T) (x : T) {i : Nat} (e : i ≠ l.length) : (l ++ [x])[i]? = l[i]? := by
  rcases Nat.lt_or_gt_of_ne e with hi | hi
  · exact List.getElem?_append_left hi
  · rw [List.getElem?_eq_none (Nat.le_of_lt hi), List.getElem?_eq_none]
    rw [List.length_append, List.length_singleton]
    omega

theorem of_set_snoc (n : Nat) (l : List T) (x : T) : (Block.of n l).set l.length (some x) = .of n (l ++ [x]) := by
  refine block_ext rfl fun i => ?_
  by_cases e : i = l.length
  · subst e
    simp [Block.set]
  · rw [of_cell, getElem?_snoc l x e]
    exact update_of_ne e _ _

theorem of_set_last (n : Nat) (l : List T) (x : T) : (Block.of n (l ++ [x])).set l.length none = .of n l := by
  refine block_ext rfl fun i => ?_
  by_cases e : i = l.length
  · subst e
    simp [Block.set]
  · rw [of_cell, ← getElem?_snoc l x e]
    exact update_of_ne e _ _

def Heap.put (h : Heap T) (b : Nat) (blk : Block T) : Heap T := { h with block := update h.block b (some blk) }

/-- One more block. -/
def Heap.grow (h : Heap T) (blk : Block T) : Heap T := ⟨update h.block h.fresh (some blk), h.fresh + 1⟩

def Heap.free (h : Heap T) (b : Nat) : Heap T := { h with block := update h.block b none }

@[simp] theorem put_fresh (h : Heap T) (b : Nat) (blk : Block T) : (h.put b blk).fresh = h.fresh := rfl
@[simp] theorem put_same (h : Heap T) (b : Nat) (blk : Block T) : (h.put b blk).block b = some blk := update_self ..
@[simp] theorem grow_fresh (h : Heap T) (blk : Block T) : (h.grow blk).fresh = h.fresh + 1 := rfl
@[simp] theorem grow_same (h : Heap T) (blk : Block T) : (h.grow blk).block h.fresh = some blk := update_self ..
@[simp] theorem free_fresh (h : Heap T) (b : Nat) : (h.free b).fresh = h.fresh := rfl

theorem put_other {h : Heap T} {b c : Nat} (e : c ≠ b) (blk : Block T) : (h.put b blk).block c = h.block c :=
  update_of_ne e _ _

theorem grow_other {h : Heap T} {c : Nat} (e : c ≠ h.fresh) (blk : Block T) : (h.grow blk).block c = h.block c :=
  update_of_ne e _ _

theorem free_other {h : Heap T} {b c : Nat} (e : c ≠ b) : (h.free b).block c = h.block c := update_of_ne e _ _

@[simp] theorem put_put (h : Heap T) (b : Nat) (x y : Block T) : (h.put b x).put b y = h.put b y := by
  simp [Heap.put]

@[simp] theorem put_free (h : Heap T) (b : Nat) (x : Block T) : (h.put b x).free b = h.free b := by
  simp [Heap.put, Heap.free]

@[simp] theorem grow_put (h : Heap T) (x y : Block T) : (h.grow x).put h.fresh y = h.grow y := by
  simp [Heap.grow, Heap.put]

theorem put_self {h : Heap T} {b : Nat} {blk : Block T} (hb : h.block b = some blk) : h.put b blk = h := by
  rw [Heap.put, ← hb, update_eq_self]

/-! ## The allocator and the slots -/

def allocate (h : Heap T) (n : Nat) : Heap T × Ptr := (h.grow (.of n []), ⟨some h.fresh, 0⟩)

/-- Giving back nothing is allowed; what it is told of the number of slots does not matter. -/
def deallocate (h : Heap T) (p : Ptr) : Exec (Heap T) :=
  match p.block with
  | none => .ok h
  | some b => if p.off = 0 ∧ (h.block b).isSome then .ok (h.free b) else .error .ub

/-- The block of the slot that `p` points to. -/
def slot (h : Heap T) (p : Ptr) : Exec (Nat × Block T) := do
  let b ← deref p.block
  let blk ← deref (h.block b)
  if p.off < blk.size then .ok (b, blk) else .error .ub

def load (h : Heap T) (p : Ptr) : Exec T := do
  let (_, blk) ← slot h p
  deref (blk.cell p.off)

def construct (h : Heap T) (p : Ptr) (x : T) : Exec (Heap T) := do
  let (b, blk) ← slot h p
  return h.put b (blk.set p.off (some x))

/-- `*p = x`; a raw slot takes it only where `T` needs no element there. -/
def assign (trivial : Bool) (h : Heap T) (p : Ptr) (x : T) : Exec (Heap T) := do
  let (b, blk) ← slot h p
  if trivial = false then
    let _ ← deref (blk.cell p.off)
  return h.put b (blk.set p.off (some x))

def destroy (h : Heap T) (p : Ptr) : Exec (Heap T) := do
  let (b, blk) ← slot h p
  let _ ← deref (blk.cell p.off)
  return h.put b (blk.set p.off none)

section
variable {h : Heap T} {b n i : Nat} {blk : Block T} {l : List T} {x : T}

theorem slot_in (hb : h.block b = some blk) (hi : i < blk.size) : slot h ⟨some b, i⟩ = .ok (b, blk) := by
  simp [slot, hb, hi]

theorem slot_out (hb : h.block b = some blk) (hi : blk.size ≤ i) : slot h ⟨some b, i⟩ = .error .ub := by
  simp [slot, hb, Nat.not_lt.mpr hi]

theorem construct_out (hb : h.block b = some blk) (hi : blk.size ≤ i) (x : T) :
    construct h ⟨some b, i⟩ x = .error .ub := by
  rw [construct, slot_out hb hi]
  rfl

theorem load_of (hb : h.block b = some (.of n l)) (hl : l.length ≤ n) (hx : l[i]? = some x) :
    load h ⟨some b, i⟩ = .ok x := by
  have hi : i < l.length := (List.getElem?_eq_some_iff.mp hx).1
  rw [load, slot_in hb (Nat.lt_of_lt_of_le hi hl), ok_bind]
  exact congrArg deref hx

/-- Making an element in the first raw slot. -/
theorem construct_of (hb : h.block b = some (.of n l)) (hl : l.length < n) (x : T) :
    construct h ⟨some b, l.length⟩ x = .ok (h.put b (.of n (l ++ [x]))) := by
  rw [construct, slot_in hb hl, ← of_set_snoc]
  rfl

theorem assign_of (hb : h.block b = some (.of n l)) (hl : l.length < n) (x : T) :
    assign true h ⟨some b, l.length⟩ x = .ok (h.put b (.of n (l ++ [x]))) := by
  rw [assign, slot_in hb hl, ← of_set_snoc]
  rfl

theorem assign_raw (hb : h.block b = some (.of n l)) (x : T) : ∃ e, assign false h ⟨some b, l.length⟩ x = .error e := by
  rcases Nat.lt_or_ge l.length n with hl | hl
  · refine ⟨.ub, ?_⟩
    have hraw : (Block.of n l).cell l.length = none := List.getElem?_eq_none (Nat.le_refl _)
    rw [assign, slot_in hb hl, ok_bind]
    simp only [if_true, hraw]
    rfl
  · refine ⟨.ub, ?_⟩
    rw [assign, slot_out hb hl]
    rfl

theorem destroy_in (hb : h.block b = some blk) (hi : i < blk.size) (hx : blk.cell i = some x) :
    destroy h ⟨some b, i⟩ = .ok (h.put b (blk.set i none)) := by
  rw [destroy, slot_in hb hi, ok_bind]
  simp only [hx, deref_some, ok_bind]
  rfl

/-- Ending the last element. -/
theorem destroy_of (hb : h.block b = some (.of n (l ++ [x]))) (hl : l.length < n) :
    destroy h ⟨some b, l.length⟩ = .ok (h.put b (.of n l)) := by
  have hx : (Block.of n (l ++ [x])).cell l.length = some x := by simp
  rw [destroy_in hb hl hx, of_set_last]

end

/-! ## Lifetimes checked -/

/-- An element is made in a raw slot only. -/
def constructRaw (h : Heap T) (p : Ptr) (x : T) : Exec (Heap T) := do
  let (b, blk) ← slot h p
  if (blk.cell p.off).isSome then .error .ub else .ok (h.put b (blk.set p.off (some x)))

/-- A block is given back with raw slots only. -/
def deallocateRaw (h : Heap T) (p : Ptr) : Exec (Heap T) :=
  match p.block with
  | none => .ok h
  | some b => do
    let blk ← deref (h.block b)
    if p.off = 0 ∧ (List.range blk.size).all fun i => (blk.cell i).isNone then .ok (h.free b) else .error .ub

section
variable {h h' : Heap T} {b n : Nat} {l : List T} {p : Ptr} {x : T}

theorem constructRaw_of (hb : h.block b = some (.of n l)) (hl : l.length < n) (x : T) :
    constructRaw h ⟨some b, l.length⟩ x = .ok (h.put b (.of n (l ++ [x]))) := by
  have hraw : ¬((Block.of n l).cell l.length).isSome := by simp
  rw [constructRaw, slot_in hb hl, ok_bind]
  simp only [if_neg hraw]
  rw [of_set_snoc]

/-- Where the slot is raw the check makes no difference. -/
theorem constructRaw_sound (h₁ : constructRaw h p x = .ok h') : construct h p x = .ok h' := by
  rw [constructRaw] at h₁
  rw [construct]
  cases hs : slot h p with
  | error e =>
    rw [hs] at h₁
    cases h₁
  | ok s =>
    rw [hs, ok_bind] at h₁
    dsimp only at h₁
    split at h₁
    · cases h₁
    · exact h₁

theorem deallocateRaw_of (hb : h.block b = some (.of n [])) : deallocateRaw h ⟨some b, 0⟩ = .ok (h.free b) := by
  simp [deallocateRaw, hb]

/-- What was given back is gone. -/
theorem deallocateRaw_gone {i : Nat} (h₁ : deallocateRaw h ⟨some b, i⟩ = .ok h') : h'.block b = none := by
  obtain ⟨blk, -, h₁⟩ := bind_eq_ok h₁
  split at h₁
  · cases h₁
    exact update_self ..
  · cases h₁

theorem load_gone {i : Nat} (hb : h.block b = none) : load h ⟨some b, i⟩ = .error .ub := by
  rw [load, slot, deref_some, ok_bind, hb]
  rfl

theorem deallocateRaw_sound (h₁ : deallocateRaw h p = .ok h') : deallocate h p = .ok h' := by
  obtain ⟨o, i⟩ := p
  cases o with
  | none => exact h₁
  | some b =>
    simp only [deallocateRaw] at h₁
    simp only [deallocate]
    cases hb : h.block b with
    | none =>
      rw [hb] at h₁
      cases h₁
    | some blk =>
      rw [hb, deref_some, ok_bind] at h₁
      split at h₁
      · next hraw =>
        rw [if_pos ⟨hraw.1, rfl⟩]
        exact h₁
      · cases h₁

end

/-! ## What is left alone -/

/-- Ids not given out yet are no blocks. -/
def Heap.Tidy (h : Heap T) : Prop := ∀ b, h.fresh ≤ b → h.block b = none

/-- From `h` to `h'` only the block of `own` has changed, and new ones have come. -/
structure Keeps (h h' : Heap T) (own : Option Nat) : Prop where
  tidy : h'.Tidy
  fresh : h.fresh ≤ h'.fresh
  others : ∀ b, b < h.fresh → own ≠ some b → h'.block b = h.block b

variable {h h' : Heap T} {b : Nat} {blk : Block T} {own : Option Nat}

theorem tidy_lt (ht : h.Tidy) (hb : h.block b = some blk) : b < h.fresh := by
  by_contra hge
  rw [ht b (Nat.not_lt.mp hge)] at hb
  cases hb

theorem keeps_put (ht : h.Tidy) (hb : b < h.fresh) (blk : Block T) : Keeps h (h.put b blk) (some b) where
  tidy c hc := by
    rw [put_fresh] at hc
    rw [put_other (Nat.ne_of_gt (Nat.lt_of_lt_of_le hb hc))]
    exact ht c hc
  fresh := Nat.le_refl _
  others c _ hc := put_other (fun e => hc (congrArg some e.symm)) blk

theorem keeps_free (ht : h.Tidy) (hb : b < h.fresh) : Keeps h (h.free b) (some b) where
  tidy c hc := by
    rw [free_fresh] at hc
    rw [free_other (Nat.ne_of_gt (Nat.lt_of_lt_of_le hb hc))]
    exact ht c hc
  fresh := Nat.le_refl _
  others c _ hc := free_other fun e => hc (congrArg some e.symm)

theorem keeps_grow (ht : h.Tidy) (blk : Block T) (own : Option Nat) : Keeps h (h.grow blk) own where
  tidy c hc := by
    rw [grow_fresh] at hc
    rw [grow_other (Nat.ne_of_gt hc)]
    exact ht c (Nat.le_of_succ_le hc)
  fresh := Nat.le_succ _
  others c hc _ := grow_other (Nat.ne_of_lt hc) blk

theorem keeps_refl (ht : h.Tidy) (own : Option Nat) : Keeps h h own := ⟨ht, Nat.le_refl _, fun _ _ _ => rfl⟩

/-- Who owns no block owns no more than anybody. -/
theorem keeps_none (hk : Keeps h h' none) (own : Option Nat) : Keeps h h' own :=
  ⟨hk.tidy, hk.fresh, fun b hb _ => hk.others b hb nofun⟩

/-- A block that has come in between is nobody's yet. -/
theorem keeps_put_new (hk : Keeps h h' own) (hb : h.fresh ≤ b) (hb' : b < h'.fresh) (blk : Block T) :
    Keeps h (h'.put b blk) own where
  tidy := (keeps_put hk.tidy hb' blk).tidy
  fresh := hk.fresh
  others c hc hown := (put_other (Nat.ne_of_lt (Nat.lt_of_lt_of_le hc hb)) blk).trans (hk.others c hc hown)

theorem keeps_trans {h'' : Heap T} (hk : Keeps h h' own) (hk' : Keeps h' h'' own) : Keeps h h'' own where
  tidy := hk'.tidy
  fresh := Nat.le_trans hk.fresh hk'.fresh
  others b hb hown := (hk'.others b (Nat.lt_of_lt_of_le hb hk.fresh) hown).trans (hk.others b hb hown)

/-! ## Which blocks there are -/

structure SameBlocks (h h' : Heap T) : Prop where
  fresh : h'.fresh = h.fresh
  live : ∀ b, (h'.block b).isSome = (h.block b).isSome

/-- The block `own`, if any, has been exchanged for `now`, which is the same one or new. -/
structure Swaps (h h' : Heap T) (own now : Option Nat) : Prop where
  live : ∀ b, (h'.block b).isSome ↔ ((h.block b).isSome ∧ own ≠ some b) ∨ now = some b
  now : ∀ b, now = some b → own = some b ∨ b = h.fresh

theorem sameBlocks_refl (h : Heap T) : SameBlocks h h := ⟨rfl, fun _ => rfl⟩

theorem sameBlocks_trans {h'' : Heap T} (hs : SameBlocks h h') (hs' : SameBlocks h' h'') : SameBlocks h h'' :=
  ⟨hs'.fresh.trans hs.fresh, fun b => (hs'.live b).trans (hs.live b)⟩

theorem sameBlocks_put (hb : h.block b = some blk) (blk' : Block T) : SameBlocks h (h.put b blk') := by
  refine ⟨rfl, fun c => ?_⟩
  by_cases e : c = b
  · subst e
    rw [put_same, hb]
    rfl
  · rw [put_other e]

theorem slot_block {p : Ptr} (hs : slot h p = .ok (b, blk)) : h.block b = some blk := by
  obtain ⟨c, -, hs⟩ := bind_eq_ok hs
  obtain ⟨blk', hc, hs⟩ := bind_eq_ok hs
  cases hb : h.block c with
  | none =>
    rw [hb] at hc
    cases hc
  | some blk'' =>
    rw [hb] at hc
    cases hc
    split at hs
    · cases hs
      exact hb
    · cases hs

theorem construct_same {p : Ptr} {x : T} (hr : construct h p x = .ok h') : SameBlocks h h' := by
  obtain ⟨⟨c, blk'⟩, hs, hr⟩ := bind_eq_ok hr
  cases hr
  exact sameBlocks_put (slot_block hs) _

theorem destroy_same {p : Ptr} (hr : destroy h p = .ok h') : SameBlocks h h' := by
  obtain ⟨⟨c, blk'⟩, hs, hr⟩ := bind_eq_ok hr
  obtain ⟨x, -, hr⟩ := bind_eq_ok hr
  cases hr
  exact sameBlocks_put (slot_block hs) _

theorem assign_same {trivial : Bool} {p : Ptr} {x : T} (hr : assign trivial h p x = .ok h') : SameBlocks h h' := by
  obtain ⟨⟨c, blk'⟩, hs, hr⟩ := bind_eq_ok hr
  dsimp only at hr
  split at hr
  · obtain ⟨y, -, hr⟩ := bind_eq_ok hr
    cases hr
    exact sameBlocks_put (slot_block hs) _
  · cases hr
    exact sameBlocks_put (slot_block hs) _

theorem swaps_new (hs : SameBlocks (h.grow blk) h') : Swaps h h' none (some h.fresh) where
  live c := by
    rw [hs.live c]
    by_cases e : c = h.fresh
    · subst e
      simp
    · rw [grow_other e]
      constructor
      · exact fun hc => .inl ⟨hc, by simp⟩
      · intro hor
        rcases hor with ⟨hc, -⟩ | hc
        · exact hc
        · exact absurd (Option.some.inj hc).symm e
  now c hc := .inr (Option.some.inj hc).symm

/-- Nothing came and nothing went. -/
theorem swaps_same (hs : SameBlocks h h') (hown : ∀ b, own = some b → (h.block b).isSome) : Swaps h h' own own where
  live c := by
    rw [hs.live c]
    constructor
    · intro hc
      by_cases e : own = some c
      · exact .inr e
      · exact .inl ⟨hc, e⟩
    · intro hor
      rcases hor with ⟨hc, -⟩ | hc
      · exact hc
      · exact hown c hc
  now _ hc := .inl hc

theorem swaps_gone {p : Ptr} (hr : deallocate h p = .ok h') : Swaps h h' p.block none ∧ h'.fresh = h.fresh := by
  obtain ⟨o, i⟩ := p
  cases o with
  | none =>
    cases hr
    exact ⟨⟨fun c => by simp, fun c hc => by cases hc⟩, rfl⟩
  | some b =>
    simp only [deallocate] at hr
    split at hr
    · cases hr
      refine ⟨⟨fun c => ?_, fun c hc => by cases hc⟩, rfl⟩
      by_cases e : c = b
      · subst e
        simp [Heap.free]
      · have e' : some b ≠ some c := fun he => e (Option.some.inj he).symm
        simp [free_other e, e']
    · cases hr

/-- The old block goes, and then a new one comes. -/
theorem Swaps.then_new {h'' : Heap T} {now : Option Nat} (hs : Swaps h h' own none) (hf : h'.fresh = h.fresh)
    (hs' : Swaps h' h'' none now) : Swaps h h'' own now := by
  refine ⟨fun c => ?_, fun c hc => ?_⟩
  · rw [hs'.live c, hs.live c]
    simp
  · rcases hs'.now c hc with hnone | hnew
    · cases hnone
    · exact .inr (hnew.trans hf)

/-- A new block comes, and then the old one goes. -/
theorem Swaps.then_gone {h'' : Heap T} (hs : Swaps h h' none (some h.fresh)) (hs' : Swaps h' h'' own none)
    (hown : own ≠ some h.fresh) : Swaps h h'' own (some h.fresh) := by
  refine ⟨fun c => ?_, fun c hc => .inr (Option.some.inj hc).symm⟩
  rw [hs'.live c, hs.live c]
  constructor
  · intro hor
    rcases hor with ⟨⟨hc, -⟩ | hc, hne⟩ | hc
    · exact .inl ⟨hc, hne⟩
    · exact .inr hc
    · cases hc
  · intro hor
    rcases hor with ⟨hc, hne⟩ | hc
    · exact .inl ⟨.inl ⟨hc, by simp⟩, hne⟩
    · exact .inl ⟨.inr hc, by rw [← hc]; exact hown⟩

theorem Swaps.after {h'' : Heap T} {now : Option Nat} (hs : Swaps h h' own now) (hs' : SameBlocks h' h'') :
    Swaps h h'' own now := by
  refine ⟨fun c => ?_, hs.now⟩
  rw [hs'.live c]
  exact hs.live c

theorem Swaps.before {h₀ : Heap T} {now : Option Nat} (hs : SameBlocks h₀ h) (hs' : Swaps h h' own now) :
    Swaps h₀ h' own now := by
  refine ⟨fun c => ?_, fun c hc => ?_⟩
  · rw [← hs.live c]
    exact hs'.live c
  · rw [← hs.fresh]
    exact hs'.now c hc

/-! ## Who has the blocks -/

section
variable {V : Type} {has : V → Option Nat} {v w : V} {now : Option Nat} {c : Nat}

/-- The block is there, and nobody has it. -/
def Lost (h : Heap T) (has : V → Option Nat) (c : Nat) : Prop := (h.block c).isSome ∧ ∀ v, has v ≠ some c

theorem lost_same (hs : SameBlocks h h') : Lost h' has c ↔ Lost h has c := by
  rw [Lost, Lost, hs.live c]

variable [DecidableEq V]

/-- Who exchanges the own block loses none. -/
theorem lost_swap (ht : h.Tidy) (hs : Swaps h h' (has v) now) : Lost h' (update has v now) c ↔ Lost h has c := by
  constructor
  · intro hx
    obtain ⟨hlive, hnone⟩ := hx
    have hv := hnone v
    rw [update_self] at hv
    obtain ⟨hlive, hown⟩ := ((hs.live c).mp hlive).resolve_right hv
    refine ⟨hlive, fun u => ?_⟩
    by_cases e : u = v
    · rw [e]
      exact hown
    · have hu := hnone u
      rwa [update_of_ne e] at hu
  · intro hx
    obtain ⟨hlive, hnone⟩ := hx
    refine ⟨(hs.live c).mpr (.inl ⟨hlive, hnone v⟩), fun u => ?_⟩
    by_cases e : u = v
    · subst e
      rw [update_self]
      intro hc
      rcases hs.now c hc with hown | rfl
      · exact hnone u hown
      · -- a new block was not there before
        rw [ht _ (Nat.le_refl _)] at hlive
        cases hlive
    · rw [update_of_ne e]
      exact hnone u

/-- Whose block is taken over in place of the own one loses the own one. -/
theorem lost_move (hne : v ≠ w) (hown : ∀ b, has v = some b → (h.block b).isSome ∧ ∀ u, u ≠ v → has u ≠ some b) :
    Lost h (update (update has w none) v (has w)) c ↔ Lost h has c ∨ has v = some c := by
  constructor
  · intro hx
    obtain ⟨hlive, hnone⟩ := hx
    by_cases hv : has v = some c
    · exact .inr hv
    · refine .inl ⟨hlive, fun u => ?_⟩
      by_cases eu : u = v
      · rw [eu]
        exact hv
      · by_cases ew : u = w
        · have hn := hnone v
          rw [update_self] at hn
          rw [ew]
          exact hn
        · have hn := hnone u
          rwa [update_of_ne eu, update_of_ne ew] at hn
  · intro hc
    have hothers : (h.block c).isSome ∧ ∀ u, u ≠ v → has u ≠ some c := by
      rcases hc with ⟨hlive, hnone⟩ | hv
      · exact ⟨hlive, fun u _ => hnone u⟩
      · exact hown c hv
    refine ⟨hothers.1, fun u => ?_⟩
    by_cases eu : u = v
    · rw [eu, update_self]
      exact hothers.2 w (Ne.symm hne)
    · rw [update_of_ne eu]
      by_cases ew : u = w
      · rw [ew, update_self]
        exact (Option.some_ne_none c).symm
      · rw [update_of_ne ew]
        exact hothers.2 u eu

end

end Wtfsc.Slots
