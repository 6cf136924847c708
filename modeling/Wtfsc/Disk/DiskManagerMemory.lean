/-
  Wtfsc.Disk.DiskManagerMemory — the disk managers of
  src/disk/bustub/disk_manager_memory.cpp, called one call at a time (`BlockThreads` has
  the threads).

  `DiskManagerMemory` is one array, whose bytes are indeterminate at first (`heap`).
  `DiskManagerUnlimitedMemory` is a vector of pointers to blocks; `ensure` and `lookup`
  are what its two calls do while they hold `mutex_`: `ensure` grows the vector and
  creates the block, `lookup` gives null for a block that is not there.
-/

import Wtfsc.Disk.BlockCalls

namespace Wtfsc.Disk

open Function
open Wtfsc.Cpp

/-- `memcpy(dst, src, BLOCK_SIZE)`: what `dst` holds afterwards. -/
def copyBlock (src dst : Bytes) : Bytes := fun k => if k < blockSize then src k else dst k

/-! ## DiskManagerMemory -/

structure DiskManagerMemory where
  /-- The bytes allocated. -/
  size : Nat
  memory : Bytes
  numWrites : Nat

def DiskManagerMemory.new (pages : Nat) (heap : Bytes) : DiskManagerMemory :=
  ⟨size64 (pages * blockSize : Nat), heap, 0⟩

def DiskManagerMemory.writeBlock (d : DiskManagerMemory) (blockId : Int) (blockData : Bytes) : Exec DiskManagerMemory :=
  let offset := size64 (size64 blockId * blockSize)
  if offset + blockSize ≤ d.size then
    .ok { d with
      memory := fun i => if offset ≤ i ∧ i < offset + blockSize then blockData (i - offset) else d.memory i
      numWrites := d.numWrites + 1 }
  else .error .ub

def DiskManagerMemory.readBlock (d : DiskManagerMemory) (blockId : Int) (blockData : Bytes) : Exec Bytes :=
  let offset := int64 (blockId * blockSize)
  if 0 ≤ offset ∧ offset + blockSize ≤ d.size then .ok (copyBlock (fun k => d.memory (offset.toNat + k)) blockData)
  else .error .ub

def DiskManagerMemory.call (d : DiskManagerMemory) : BlockCall Bytes → Exec DiskManagerMemory
  | .write b x => d.writeBlock b x
  | .read b x => (d.readBlock b x).map fun _ => d

def DiskManagerMemory.after (d : DiskManagerMemory) (calls : List (BlockCall Bytes)) : Exec DiskManagerMemory :=
  calls.foldlM DiskManagerMemory.call d

/-! ## DiskManagerUnlimitedMemory -/

structure DiskManagerUnlimitedMemory where
  data : List (Option Nat)
  blocks : Nat → Bytes
  /-- The address of the next block created. -/
  fresh : Nat
  numWrites : Nat

def DiskManagerUnlimitedMemory.new : DiskManagerUnlimitedMemory := ⟨[], fun _ _ => 0, 0, 0⟩

/-- `data_.resize(n)` -/
def resize (data : List (Option Nat)) (n : Nat) : List (Option Nat) :=
  data.take n ++ List.replicate (n - data.length) none

/-- The vector with room for the block. -/
def DiskManagerUnlimitedMemory.room (d : DiskManagerUnlimitedMemory) (blockId : Int) : Exec (List (Option Nat)) :=
  if blockId ≥ int32 d.data.length then
    if blockId + 1 < 2 ^ 31 then .ok (resize d.data (size64 (blockId + 1))) else .error .ub
  else .ok d.data

/-- `WriteBlock` under `mutex_`: the block, created if it is not there. -/
def DiskManagerUnlimitedMemory.ensure (d : DiskManagerUnlimitedMemory) (blockId : Int) :
    Exec (DiskManagerUnlimitedMemory × Nat) := do
  let data ← d.room blockId
  match ← at_ data blockId with
  | some ptr => .ok ({ d with data := data }, ptr)
  | none =>
    let data ← setAt data blockId (some d.fresh)
    .ok ({ d with data := data, blocks := update d.blocks d.fresh fun _ => 0, fresh := d.fresh + 1 }, d.fresh)

/-- `ReadBlock` under `mutex_`: the block, if it is there. -/
def DiskManagerUnlimitedMemory.lookup (d : DiskManagerUnlimitedMemory) (blockId : Int) : Exec (Option Nat) :=
  if blockId ≥ int32 d.data.length ∨ blockId < 0 then .ok none else at_ d.data blockId

def DiskManagerUnlimitedMemory.writeBlock (d : DiskManagerUnlimitedMemory) (blockId : Int) (blockData : Bytes) :
    Exec DiskManagerUnlimitedMemory := do
  let r ← d.ensure blockId
  .ok { r.1 with blocks := update r.1.blocks r.2 (copyBlock blockData (r.1.blocks r.2)) }

def DiskManagerUnlimitedMemory.readBlock (d : DiskManagerUnlimitedMemory) (blockId : Int) (blockData : Bytes) :
    Exec Bytes := do
  match ← d.lookup blockId with
  | some ptr => .ok (copyBlock (d.blocks ptr) blockData)
  | none => .ok blockData

def DiskManagerUnlimitedMemory.call (d : DiskManagerUnlimitedMemory) :
    BlockCall Bytes → Exec DiskManagerUnlimitedMemory
  | .write b x => d.writeBlock b x
  | .read b x => (d.readBlock b x).map fun _ => d

def DiskManagerUnlimitedMemory.after (d : DiskManagerUnlimitedMemory) (calls : List (BlockCall Bytes)) :
    Exec DiskManagerUnlimitedMemory :=
  calls.foldlM DiskManagerUnlimitedMemory.call d

/-! ## The vector of pointers -/

/-- What `data_[i]` points to; null also past the end. -/
def DiskManagerUnlimitedMemory.slot (d : DiskManagerUnlimitedMemory) (i : Nat) : Option Nat := (d.data[i]?).join

structure Table (d : DiskManagerUnlimitedMemory) : Prop where
  inj : ∀ i j p, d.slot i = some p → d.slot j = some p → i = j
  fresh : ∀ i p, d.slot i = some p → p < d.fresh
  small : d.data.length < 2 ^ 31

theorem table_new : Table .new where
  inj := nofun
  fresh := nofun
  small := by decide

variable {d : DiskManagerUnlimitedMemory} {b : Int}

/-- An id whose successor is an `int`. -/
def IsSlot (b : Int) : Prop := 0 ≤ b ∧ b < 2 ^ 31 - 1

instance (b : Int) : Decidable (IsSlot b) := inferInstanceAs (Decidable (_ ∧ _))

theorem IsSlot.toNat_inj {c : Int} (hb : IsSlot b) (hc : IsSlot c) (h : b.toNat = c.toNat) : b = c := by
  have := hb.1
  have := hc.1
  omega

theorem length_int32 (h : Table d) : int32 d.data.length = d.data.length :=
  int32_eq (by omega) (by have := h.small; omega)

/-- The vector is long enough afterwards, and holds the same pointers. -/
theorem room_spec (h : Table d) (hb : IsSlot b) :
    ∃ data, d.room b = .ok data ∧ b.toNat < data.length ∧ data.length < 2 ^ 31 ∧ ∀ i, (data[i]?).join = d.slot i := by
  have hsmall := h.small
  obtain ⟨h0, hlt⟩ := hb
  unfold DiskManagerUnlimitedMemory.room
  rw [length_int32 h]
  by_cases hge : b ≥ d.data.length
  · have hsize : size64 (b + 1) = b.toNat + 1 := by unfold size64; omega
    rw [if_pos hge, if_pos (by omega), hsize]
    refine ⟨_, rfl, ?_, ?_, fun i => ?_⟩
    · simp only [resize, List.length_append, List.length_take, List.length_replicate]
      omega
    · simp only [resize, List.length_append, List.length_take, List.length_replicate]
      omega
    · rw [resize, List.take_of_length_le (by omega)]
      rcases Nat.lt_or_ge i d.data.length with hi | hi
      · rw [List.getElem?_append_left hi]
        rfl
      · rw [List.getElem?_append_right hi, DiskManagerUnlimitedMemory.slot, List.getElem?_eq_none hi,
          List.getElem?_replicate]
        split <;> rfl
  · rw [if_neg hge]
    exact ⟨_, rfl, by omega, hsmall, fun _ => rfl⟩

/-- A new block goes into one slot. -/
theorem Table.put (h : Table d) {d' : DiskManagerUnlimitedMemory} {n : Nat}
    (hslot : ∀ i, d'.slot i = if i = n then some d.fresh else d.slot i) (hfresh : d'.fresh = d.fresh + 1)
    (hsmall : d'.data.length < 2 ^ 31) : Table d' where
  inj i j q hi hj := by
    rw [hslot] at hi hj
    by_cases ei : i = n <;> by_cases ej : j = n
    · rw [ei, ej]
    · -- the new pointer is in no other slot
      rw [if_pos ei, Option.some.injEq] at hi
      rw [if_neg ej, ← hi] at hj
      exact absurd (h.fresh j _ hj) (Nat.lt_irrefl _)
    · rw [if_pos ej, Option.some.injEq] at hj
      rw [if_neg ei, ← hj] at hi
      exact absurd (h.fresh i _ hi) (Nat.lt_irrefl _)
    · rw [if_neg ei] at hi
      rw [if_neg ej] at hj
      exact h.inj i j q hi hj
  fresh i q hi := by
    rw [hfresh]
    rw [hslot] at hi
    by_cases ei : i = n
    · rw [if_pos ei, Option.some.injEq] at hi
      exact hi ▸ Nat.lt_succ_self _
    · rw [if_neg ei] at hi
      exact Nat.lt_succ_of_lt (h.fresh i q hi)
  small := hsmall

/-- `ensure` finds the block, or puts a new one of zeros in its place; no other slot changes. -/
theorem ensure_spec (h : Table d) (hb : IsSlot b) :
    ∃ d' p, d.ensure b = .ok (d', p) ∧ Table d' ∧ d'.slot b.toNat = some p ∧ (∀ i, i ≠ b.toNat → d'.slot i = d.slot i) ∧
      d'.numWrites = d.numWrites ∧
      (d.slot b.toNat = some p ∧ d'.blocks = d.blocks ∧ d'.fresh = d.fresh ∨
        d.slot b.toNat = none ∧ p = d.fresh ∧ d'.blocks = update d.blocks p (fun _ => 0) ∧ d'.fresh = d.fresh + 1) := by
  obtain ⟨data, hroom, hlen, hsmall, hslot⟩ := room_spec h hb
  have hat : ∀ q, (data[b.toNat]?).join = q → at_ data b = .ok q := by
    intro q hq
    rw [at_, if_pos hb.1, List.getElem?_eq_getElem hlen]
    rw [List.getElem?_eq_getElem hlen] at hq
    exact congrArg Except.ok hq
  have hsame : ∀ i, DiskManagerUnlimitedMemory.slot { d with data := data } i = d.slot i := hslot
  cases hs : d.slot b.toNat with
  | some p =>
    refine ⟨{ d with data := data }, p, ?_, ⟨fun i j q => ?_, fun i q => ?_, hsmall⟩, (hsame _).trans hs,
      fun i _ => hsame i, rfl, .inl ⟨rfl, rfl, rfl⟩⟩
    · rw [DiskManagerUnlimitedMemory.ensure, hroom, ok_bind, hat _ ((hslot _).trans hs)]
      rfl
    · rw [hsame, hsame]
      exact h.inj i j q
    · rw [hsame]
      exact h.fresh i q
  | none =>
    have hset : setAt data b (some d.fresh) = .ok (data.set b.toNat (some d.fresh)) := if_pos ⟨hb.1, by
      have := hb.1
      omega⟩
    have hnew : ∀ i, ((data.set b.toNat (some d.fresh))[i]?).join = if i = b.toNat then some d.fresh else d.slot i := by
      intro i
      rw [List.getElem?_set]
      by_cases e : i = b.toNat
      · subst e
        simp [hlen]
      · rw [if_neg (Ne.symm e), if_neg e]
        exact hslot i
    refine ⟨{ d with
        data := data.set b.toNat (some d.fresh)
        blocks := update d.blocks d.fresh fun _ => 0
        fresh := d.fresh + 1 }, d.fresh, ?_, h.put hnew rfl (by simpa using hsmall),
      (hnew _).trans (if_pos rfl), fun i e => (hnew i).trans (if_neg e), rfl, .inr ⟨rfl, rfl, rfl, rfl⟩⟩
    rw [DiskManagerUnlimitedMemory.ensure, hroom, ok_bind, hat _ ((hslot _).trans hs), ok_bind]
    show (setAt data b (some d.fresh) >>= _) = _
    rw [hset]
    rfl

theorem lookup_spec (h : Table d) (hb : IsSlot b) : d.lookup b = .ok (d.slot b.toNat) := by
  have h0 := hb.1
  unfold DiskManagerUnlimitedMemory.lookup DiskManagerUnlimitedMemory.slot
  rw [length_int32 h]
  by_cases hge : b ≥ d.data.length
  · rw [if_pos (.inl hge), List.getElem?_eq_none (by omega)]
    rfl
  · have hlen : b.toNat < d.data.length := by omega
    rw [if_neg (by omega), at_, if_pos h0, List.getElem?_eq_getElem hlen]
    rfl

end Wtfsc.Disk
