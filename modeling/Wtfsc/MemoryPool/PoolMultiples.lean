/-
  Wtfsc.MemoryPool.PoolMultiples — what the offsets of a pool are multiples of (see
  `Wtfsc.MemoryPool.Pool`).

  `allocate` puts a unit where the one before it ends and rounds nothing, and `deallocate`
  takes back no other number than was added. So whatever number the byte counts asked for
  are multiples of, as long as it divides the size of a unit header, all offsets are
  multiples of it, wrapped or not: every function keeps that (`AllMultiples`).
-/

import Wtfsc.Lib.Triples
import Wtfsc.MemoryPool.PoolProofs

namespace Wtfsc.MemoryPool

open Function
open Wtfsc.Cpp
open Wtfsc.Triples

/-! ## What every offset is a multiple of -/

/-- The offset of the block is a multiple of `a`, and so is the length in every unit header in its bytes. -/
structure Multiples (a : Nat) (b : Block) : Prop where
  offset : a ∣ b.offset
  lengths : ∀ k u i, b.mem k = .unit u i → a ∣ u.length

def HeapMultiples (a : Nat) (heap : Nat → Option Block) : Prop := ∀ id b, heap id = some b → Multiples a b

def AllMultiples (a : Nat) (s : Pool) : Prop := HeapMultiples a s.heap

variable {a size : Nat} {heap : Nat → Option Block} {s : Pool} {b : Block} {p : Option Nat} {u : UnitHeader}

theorem dvd_size64 (ha : a ∣ 16) {x : Int} (hx : (a : Int) ∣ x) : a ∣ size64 x := by
  have hpow : (a : Int) ∣ 2 ^ 64 := Int.dvd_trans (Int.natCast_dvd_natCast.mpr ha) (by decide)
  have hmod : (a : Int) ∣ x % 2 ^ 64 := by
    rw [Int.emod_def]
    exact Int.dvd_sub hx (Int.dvd_mul_of_dvd_left hpow)
  have hnonneg : 0 ≤ x % 2 ^ 64 := Int.emod_nonneg _ (by decide)
  rw [← Int.natCast_dvd_natCast, size64, Int.toNat_of_nonneg hnonneg]
  exact hmod

theorem HeapMultiples.update {b? : Option Block} (hs : HeapMultiples a heap) (id : Nat)
    (hb : ∀ b, b? = some b → Multiples a b) : HeapMultiples a (update heap id b?) := by
  intro x c hc
  by_cases e : x = id
  · rw [e, update_self] at hc
    exact hb c hc
  · rw [update_of_ne e] at hc
    exact hs x c hc

theorem multiples_new {n q : Option Nat} {bytes : Nat} : Multiples a ⟨size, 0, n, q, 0, 0, bytes, fun _ => .undef⟩ :=
  ⟨Nat.dvd_zero _, nofun⟩

theorem Multiples.congr {c : Block} (hb : Multiples a b) (ho : c.offset = b.offset) (hm : c.mem = b.mem) :
    Multiples a c := by
  refine ⟨ho ▸ hb.offset, fun k u i hk => ?_⟩
  rw [hm] at hk
  exact hb.lengths k u i hk

/-! ## The functions -/

theorem keeps_load (p : Option Nat) : Keeps (AllMultiples a) (load p) (Multiples a) := by
  intro s hs
  unfold load
  cases hb : p.bind s.heap with
  | none => exact hs
  | some b =>
    obtain ⟨id, -, hid⟩ := Option.bind_eq_some_iff.mp hb
    exact ⟨hs, hs id b hid⟩

theorem keeps_store {f : Block → Block} (hf : ∀ b, Multiples a b → Multiples a (f b)) (p : Option Nat) :
    Keeps (AllMultiples a) (store p f) fun _ => True := by
  intro s hs
  unfold store
  cases p with
  | none => exact hs
  | some id =>
    dsimp only
    cases hb : s.heap id with
    | none => exact hs
    | some b =>
      refine ⟨hs.update id fun c hc => ?_, trivial⟩
      cases hc
      exact hf b (hs id b hb)

theorem keeps_free (id : Nat) : Keeps (AllMultiples a) (free id) fun _ => True :=
  keeps_modify fun _ hs => HeapMultiples.update hs id nofun

/-- A header that is read is one in the bytes of a block. -/
theorem keeps_readUnit (p : Ptr) : Keeps (AllMultiples a) (readUnit p) fun u => a ∣ u.length := by
  refine (keeps_load _).bind fun b hb => ?_
  cases hu : unitAt b.mem p.off with
  | none => exact keeps_throw _
  | some u =>
    refine keeps_pure ?_
    unfold unitAt at hu
    split at hu
    · next v i hcell =>
      split at hu
      · cases hu
        exact hb.lengths _ _ _ hcell
      · cases hu
    · cases hu

theorem keeps_writeUnit (hu : a ∣ u.length) (p : Ptr) : Keeps (AllMultiples a) (writeUnit p u) fun _ => True := by
  refine (keeps_load _).bind fun b _ => keeps_ite (fun _ => ?_) fun _ => keeps_throw _
  refine keeps_store (f := fun b => { b with mem := putUnit b.mem p.off u }) (fun b hb => ⟨hb.offset, ?_⟩) _
  intro k v i hk
  dsimp only [putUnit] at hk
  split at hk
  · cases hk
    exact hu
  · exact hb.lengths k v i hk

/-- A new block is empty; the links of the others do not matter. -/
theorem keeps_createMemoryBlock (blockSize : Nat) (avail : Bool) :
    Keeps (AllMultiples a) (createMemoryBlock blockSize avail) fun _ => True := by
  unfold createMemoryBlock
  refine keeps_ite (fun _ => keeps_throw_bind _) fun _ => keeps_ite (fun _ => keeps_throw_bind _) fun _ => ?_
  refine keeps_get.bind fun s hs => keeps_ite (fun _ => ?_) fun _ => ?_
  · refine keeps_seq (keeps_set ?_) (keeps_seq (keeps_store ?_ _) (keeps_modify fun _ hs' => hs'))
    · refine HeapMultiples.update hs _ ?_
      intro b hc
      cases hc
      exact multiples_new
    · exact fun _ hb => hb.congr rfl rfl
  · refine keeps_set (HeapMultiples.update hs _ ?_)
    intro b hc
    cases hc
    exact multiples_new

theorem keeps_chooseBlock (size : Nat) (avail : Bool) : Keeps (AllMultiples a) (chooseBlock size avail) fun _ => True := by
  refine keeps_get.bind fun s _ => (keeps_load _).bind fun b _ => ?_
  exact keeps_ite (fun _ => keeps_pure trivial) fun _ =>
    keeps_ite (fun _ => keeps_createMemoryBlock _ _) fun _ => keeps_createMemoryBlock _ _

/-- The unit goes where the offset is, and the offset grows by the unit. -/
theorem keeps_addUnit (ha : a ∣ 16) (hsize : a ∣ size) :
    Keeps (AllMultiples a) (addUnit size) fun p => a ∣ p.off := by
  have hunit : a ∣ size64 (unitHeaderSize + size : Nat) := dvd_size64 ha (Int.natCast_dvd_natCast.mpr (Nat.dvd_add ha hsize))
  unfold addUnit
  refine keeps_get.bind fun s _ => ?_
  cases s.currentBlock with
  | none => exact keeps_throw _
  | some container =>
    refine (keeps_load _).bind fun cur hcur => ?_
    refine keeps_seq (keeps_writeUnit hsize _) (keeps_seq (keeps_store ?_ _) (keeps_seq (keeps_store ?_ _) (keeps_pure ?_)))
    · exact fun _ hb => hb.congr rfl rfl
    · exact fun b hb => ⟨dvd_size64 ha (Int.natCast_dvd_natCast.mpr (Nat.dvd_add hb.offset hunit)), hb.lengths⟩
    · have hheader : a ∣ blockHeaderSize := Nat.dvd_trans ha (by decide)
      exact Nat.dvd_add (Nat.dvd_add hheader hcur.offset) ha

theorem keeps_allocatesize (ha : a ∣ 16) (hsize : a ∣ size) (avail : Bool) :
    Keeps (AllMultiples a) (allocatesize size avail) fun p => a ∣ p.off :=
  (keeps_chooseBlock size avail).bind fun _ _ => keeps_addUnit ha hsize

theorem keeps_removeBlock (block : Nat) : Keeps (AllMultiples a) (removeBlock block) fun _ => True := by
  unfold removeBlock
  refine keeps_get.bind fun s hs => (keeps_load _).bind fun b _ => ?_
  refine keeps_ite (fun _ => ?_) fun _ => keeps_ite (fun _ => ?_) fun _ => ?_
  · refine keeps_seq (keeps_set hs) (keeps_seq (keeps_store ?_ _) (keeps_free _))
    exact fun _ hb => hb.congr rfl rfl
  · refine keeps_seq (keeps_set hs) (keeps_seq (keeps_store ?_ _) (keeps_free _))
    exact fun _ hb => hb.congr rfl rfl
  · refine keeps_seq (keeps_store ?_ _) ((keeps_load _).bind fun b _ => keeps_seq (keeps_store ?_ _) (keeps_free _))
    · exact fun _ hb => hb.congr rfl rfl
    · exact fun _ hb => hb.congr rfl rfl

/-- The offset shrinks by no other number than a unit's. -/
theorem keeps_releaseUnit (ha : a ∣ 16) (hu : a ∣ u.length) (unit : Ptr) :
    Keeps (AllMultiples a) (releaseUnit unit u) fun _ => True := by
  unfold releaseUnit
  have hunit : a ∣ size64 (unitHeaderSize + u.length : Nat) := dvd_size64 ha (Int.natCast_dvd_natCast.mpr (Nat.dvd_add ha hu))
  refine (keeps_load _).bind fun b _ => keeps_ite (fun _ => ?_) fun _ => ?_
  · refine keeps_store ?_ _
    intro c hc
    refine ⟨dvd_size64 ha (Int.dvd_sub ?_ ?_), hc.lengths⟩
    · exact Int.natCast_dvd_natCast.mpr hc.offset
    · exact Int.natCast_dvd_natCast.mpr hunit
  · refine keeps_store ?_ _
    exact fun _ hc => hc.congr rfl rfl

theorem keeps_deallocate (ha : a ∣ 16) (p : Option Ptr) : Keeps (AllMultiples a) (deallocate p) fun _ => True := by
  cases p with
  | none => exact keeps_pure trivial
  | some p =>
    refine keeps_ite (fun _ => keeps_throw_bind _) fun _ => (keeps_readUnit _).bind fun u hu => ?_
    refine (keeps_releaseUnit ha hu _).bind fun _ _ => ?_
    refine keeps_get.bind fun s _ => (keeps_load _).bind fun b _ => ?_
    exact keeps_ite (fun _ => keeps_removeBlock _) fun _ => keeps_pure trivial

theorem keeps_setByte (p : Ptr) (i : Nat) (v : UInt8) : Keeps (AllMultiples a) (setByte p i v) fun _ => True := by
  refine keeps_store (f := fun b => { b with mem := update b.mem (p.off + i) (.data v) }) (fun b hb => ⟨hb.offset, ?_⟩) _
  intro k u j hk
  dsimp only at hk
  by_cases e : k = p.off + i
  · rw [e, update_self] at hk
    cases hk
  · rw [update_of_ne e] at hk
    exact hb.lengths k u j hk

end Wtfsc.MemoryPool
