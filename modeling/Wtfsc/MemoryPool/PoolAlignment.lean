/-
  Wtfsc.MemoryPool.PoolAlignment — where a pool puts its units and their headers (see
  `Wtfsc.MemoryPool.Pool`).

  `malloc` returns multiples of 16, and a block and a unit header are 48 and 16 bytes long,
  so an address is a multiple of what its offset is one of. Requests may be of any `n`,
  also where `n * sizeof(T)` or the sizes computed from it wrap.
  - What `allocate` returns is aligned for `T` in every run, as `sizeof(T)` is a multiple of
    `alignof(T)` and the lengths in the headers are multiples of `sizeof(T)`.
  - `units_aligned_iff`: a header is where the unit before it ends, so it is at a multiple
    of 8 if every request was one. Where `sizeof(T)` is none, one element and a unit behind
    it give a header that is not (`second_header`).
-/

import Wtfsc.MemoryPool.PoolMultiples
import Wtfsc.MemoryPool.PoolSizes

namespace Wtfsc.MemoryPool

open Function
open Wtfsc.Cpp
open Wtfsc.Arena
open Wtfsc.Links
open Wtfsc.Triples

/-- The states of a pool used for `T`, the `n`s asked for being such that `P` holds. A client knows the pointers it was
returned and how many bytes the pool took each for; it frees and writes what it holds. -/
inductive Uses (blockSize sizeofT : Nat) (P : Nat → Prop) : Client → Prop
  | init {s : Pool} (h : construct blockSize true = .ok () s) : Uses blockSize sizeofT P ⟨s, []⟩
  | allocate {c : Client} {p : Ptr} {s' : Pool} (n : Nat) (avail : Bool) (hn : n < 2 ^ 64) (hP : P n)
      (h : Uses blockSize sizeofT P c) (hrun : allocate sizeofT n avail c.pool = .ok p s') :
      Uses blockSize sizeofT P ⟨s', ⟨p, size64 (n * sizeofT : Nat)⟩ :: c.live⟩
  | throws {c : Client} {what : String} {s' : Pool} (n : Nat) (avail : Bool) (hn : n < 2 ^ 64) (hP : P n)
      (h : Uses blockSize sizeofT P c) (hrun : allocate sizeofT n avail c.pool = .error (.throws what) s') :
      Uses blockSize sizeofT P ⟨s', c.live⟩
  | deallocate {c : Client} {s' : Pool} (u : Live) (hu : u ∈ c.live) (h : Uses blockSize sizeofT P c)
      (hrun : deallocate (some u.ptr) c.pool = .ok () s') : Uses blockSize sizeofT P ⟨s', c.live.erase u⟩
  | write {c : Client} {s' : Pool} (u : Live) (i : Nat) (v : UInt8) (hu : u ∈ c.live) (hi : i < u.length)
      (h : Uses blockSize sizeofT P c) (hrun : setByte u.ptr i v c.pool = .ok () s') :
      Uses blockSize sizeofT P ⟨s', c.live⟩

/-- The address of a byte of a block, `malloc` having returned `base id` for the block `id`. -/
def address (base : Nat → Nat) (p : Ptr) : Nat := base p.block + p.off

/-- Where the header of the unit was written. -/
def headerOf (u : Live) : Ptr := ⟨u.ptr.block, u.ptr.off - unitHeaderSize⟩

/-- Every unit header was written where a `size_t` and a pointer may be. -/
def HeadersAligned (base : Nat → Nat) (c : Client) : Prop := ∀ u ∈ c.live, 8 ∣ address base (headerOf u)

/-- Every pointer that was returned is one to a `T`. -/
def PointersAligned (base : Nat → Nat) (alignofT : Nat) (c : Client) : Prop := ∀ u ∈ c.live, alignofT ∣ address base u.ptr

variable {blockSize sizeofT alignofT a : Nat} {P : Nat → Prop} {base : Nat → Nat} {c : Client} {s s' : Pool} {u : Live}

/-! ## Every run -/

theorem uses_multiples (ha : a ∣ 16) (hP : ∀ n, P n → a ∣ n * sizeofT) (h : Uses blockSize sizeofT P c) :
    AllMultiples a c.pool ∧ ∀ u ∈ c.live, a ∣ u.ptr.off := by
  have hsize : ∀ n, P n → a ∣ size64 (n * sizeofT : Nat) := fun n hn =>
    dvd_size64 ha (Int.natCast_dvd_natCast.mpr (hP n hn))
  induction h with
  | init h =>
    have hempty : AllMultiples a ⟨fun _ => none, 0, none, none, blockSize⟩ := fun _ _ hb => by cases hb
    exact ⟨((keeps_createMemoryBlock blockSize true).ok hempty h).1, fun u hu => by cases hu⟩
  | allocate n avail _ hn _ hrun ih =>
    obtain ⟨hs, hlive⟩ := ih
    obtain ⟨hs', hp⟩ := (keeps_allocatesize ha (hsize n hn) avail).ok hs hrun
    refine ⟨hs', fun u hu => ?_⟩
    rcases List.mem_cons.mp hu with rfl | hu
    · exact hp
    · exact hlive u hu
  | throws n avail _ hn _ hrun ih =>
    obtain ⟨hs, hlive⟩ := ih
    exact ⟨(keeps_allocatesize ha (hsize n hn) avail).error hs hrun, hlive⟩
  | deallocate u _ _ hrun ih =>
    exact ⟨((keeps_deallocate ha _).ok ih.1 hrun).1, fun v hv => ih.2 v (List.mem_of_mem_erase hv)⟩
  | write u i v _ _ _ hrun ih => exact ⟨((keeps_setByte _ _ _).ok ih.1 hrun).1, ih.2⟩

theorem address_dvd (ha : a ∣ 16) (hbase : ∀ id, 16 ∣ base id) {p : Ptr} : a ∣ address base p ↔ a ∣ p.off :=
  (Nat.dvd_add_iff_right (Nat.dvd_trans ha (hbase p.block))).symm

/-- A header is as aligned as what is behind it. -/
theorem header_dvd (ha : a ∣ 16) (hbase : ∀ id, 16 ∣ base id) (hu : a ∣ u.ptr.off) : a ∣ address base (headerOf u) :=
  (address_dvd ha hbase).mpr (Nat.dvd_sub hu ha)

/-- A `T` is aligned to what its size is a multiple of. -/
theorem pointers_aligned (hbase : ∀ id, 16 ∣ base id) (halign : alignofT ∣ 16) (hT : alignofT ∣ sizeofT)
    (h : Uses blockSize sizeofT P c) : PointersAligned base alignofT c := by
  obtain ⟨-, hlive⟩ := uses_multiples halign (fun n _ => Nat.dvd_mul_left_of_dvd hT n) h
  exact fun u hu => (address_dvd halign hbase).mpr (hlive u hu)

theorem headers_aligned (hbase : ∀ id, 16 ∣ base id) (hP : ∀ n, P n → 8 ∣ n * sizeofT) (h : Uses blockSize sizeofT P c) :
    HeadersAligned base c := by
  have h8 : 8 ∣ 16 := by decide
  obtain ⟨-, hlive⟩ := uses_multiples h8 hP h
  exact fun u hu => header_dvd h8 hbase (hlive u hu)

/-! ## Where a header is misaligned -/

theorem construct_ok (hsize : blockHeaderSize + blockSize < 2 ^ 64) : ∃ s, construct blockSize true = .ok () s := by
  have hbytes : ¬blockHeaderSize + blockSize < blockHeaderSize := by omega
  unfold construct createMemoryBlock
  simp only [Bool.not_true, Bool.false_eq_true, if_false, size64_natCast hsize, if_neg hbytes]
  exact ⟨_, rfl⟩

/-- In a pool of one block, a unit is put where the units before it end. -/
theorem allocate_on_top {n k : Nat} {live : List Live} {st : Nat → List Slot} (h : Inv s live [0] st)
    (hk : sizes s.heap 0 = some k) (hroom : height unitHeaderSize (st 0) + (n * sizeofT + unitHeaderSize) < k) :
    ∃ s', allocate sizeofT n true s = .ok (unitOf 0 (height unitHeaderSize (st 0), n * sizeofT)).ptr s' ∧
      Inv s' (unitOf 0 (height unitHeaderSize (st 0), n * sizeofT) :: live) [0] (update st 0 (⟨n * sizeofT, true⟩ :: st 0)) ∧
      sizes s'.heap 0 = some k := by
  have hlast : Inv s live ([] ++ [0]) st := h
  obtain ⟨b, -, hb⟩ := hlast.last
  have hok := h.blocks 0 b hb
  have hsame : b.blockSize = k := by
    rw [sizes, hb] at hk
    exact Option.some.inj hk
  rw [← hok.offset, ← hsame] at hroom
  rw [← hok.offset]
  have hbytes := hok.bytes
  have hsmall := hok.small
  have hv : n * sizeofT + unitHeaderSize + blockHeaderSize < 2 ^ 64 := by omega
  have hspec := allocate_spec hlast hb hv true
  rw [if_pos (by omega)] at hspec
  obtain ⟨s', hrun, hinv, -, hsizes, -⟩ := hspec
  exact ⟨s', hrun, hinv, hsizes ▸ hk⟩

/-- In a block that has room for one element and a second header, that header is behind the element. -/
theorem second_header (hroom : sizeofT + 2 * unitHeaderSize < blockSize) (hsize : blockHeaderSize + blockSize < 2 ^ 64) :
    ∃ c, Uses blockSize sizeofT (fun _ => True) c ∧ unitOf 0 (unitHeaderSize + sizeofT, 0) ∈ c.live := by
  obtain ⟨s, hs⟩ := construct_ok hsize
  have hlt : blockSize < 2 ^ 64 := by omega
  obtain ⟨hinv, -⟩ := construct_inv hlt hs
  have hsizes : sizes s.heap 0 = some blockSize := by
    obtain ⟨-, rfl⟩ := construct_eq hlt hs
    rfl
  have hone : height unitHeaderSize [] + (1 * sizeofT + unitHeaderSize) < blockSize := by
    rw [height_nil]
    omega
  obtain ⟨s₁, hrun₁, hinv₁, hsizes₁⟩ := allocate_on_top hinv hsizes hone
  have htop : height unitHeaderSize (update (fun _ => []) 0 [⟨1 * sizeofT, true⟩] 0) = unitHeaderSize + sizeofT := by
    rw [update_self, height_cons, height_nil]
    dsimp only
    omega
  have htwo : unitHeaderSize + sizeofT + (0 * sizeofT + unitHeaderSize) < blockSize := by omega
  obtain ⟨s₂, hrun₂, -, -⟩ := allocate_on_top hinv₁ hsizes₁ (htop ▸ htwo)
  rw [htop] at hrun₂
  refine ⟨_, .allocate 0 true (by decide) trivial (.allocate 1 true (by decide) trivial (.init hs) hrun₁) hrun₂, ?_⟩
  rw [Nat.zero_mul]
  exact List.mem_cons_self

theorem second_header_misaligned (hbase : ∀ id, 16 ∣ base id) (hs : ¬8 ∣ sizeofT) :
    ¬8 ∣ address base (headerOf (unitOf 0 (unitHeaderSize + sizeofT, 0))) := by
  rw [address_dvd (by decide) hbase]
  have hheader : unitHeaderSize = 16 := rfl
  have hblock : blockHeaderSize = 48 := rfl
  unfold headerOf unitOf
  dsimp only
  omega

/-- In every pool all that is returned is aligned for `T`, and where every request is for a multiple of 8 bytes the headers
are aligned too. For a `T` they are in every run of every pool if and only if `sizeof(T)` is a multiple of 8. -/
theorem units_aligned_iff (hbase : ∀ id, 16 ∣ base id) (halign : alignofT ∣ 16) (hT : alignofT ∣ sizeofT)
    (hobject : sizeofT < 2 ^ 63) :
    (∀ blockSize c, Uses blockSize sizeofT (fun _ => True) c → PointersAligned base alignofT c) ∧
      (∀ blockSize c, Uses blockSize sizeofT (fun n => 8 ∣ n * sizeofT) c →
          PointersAligned base alignofT c ∧ HeadersAligned base c) ∧
      ((∀ blockSize c, Uses blockSize sizeofT (fun _ => True) c →
          PointersAligned base alignofT c ∧ HeadersAligned base c) ↔ 8 ∣ sizeofT) := by
  refine ⟨fun _ _ h => pointers_aligned hbase halign hT h, ?_, ?_⟩
  · exact fun _ _ h => ⟨pointers_aligned hbase halign hT h, headers_aligned hbase (fun _ hn => hn) h⟩
  constructor
  · intro hall
    by_contra hs
    have hblock : blockHeaderSize = 48 := rfl
    have hheader : unitHeaderSize = 16 := rfl
    have hroom : sizeofT + 2 * unitHeaderSize < sizeofT + 2 * unitHeaderSize + 1 := Nat.lt_succ_self _
    obtain ⟨c, huse, hmem⟩ := second_header hroom (by omega)
    exact second_header_misaligned hbase hs ((hall _ c huse).2 _ hmem)
  · intro hs _ _ h
    exact ⟨pointers_aligned hbase halign hT h, headers_aligned hbase (fun n _ => Nat.dvd_mul_left_of_dvd hs n) h⟩

theorem units_aligned_iff_twelve :
    (∀ blockSize c, Uses blockSize 12 (fun _ => True) c → PointersAligned (4096 * ·) 4 c) ∧
      ¬∀ blockSize c, Uses blockSize 12 (fun _ => True) c →
        PointersAligned (4096 * ·) 4 c ∧ HeadersAligned (4096 * ·) c := by
  have hbase : ∀ id, 16 ∣ 4096 * id := fun id => Nat.dvd_mul_right_of_dvd (by decide) id
  have halign : 4 ∣ 16 := by decide
  have hT : 4 ∣ 12 := by decide
  obtain ⟨hpointers, -, hiff⟩ := units_aligned_iff hbase halign hT (by decide)
  exact ⟨hpointers, mt hiff.mp (by decide)⟩

/-- 3 bytes and 1 byte from a `MemoryPool<char>`: the second header is at byte 67 of its block. -/
theorem header_after_three_bytes : ∃ c, Uses 80 1 (fun _ => True) c ∧
    ∀ base, (∀ id, 16 ∣ base id) → ¬HeadersAligned base c := by
  obtain ⟨s, hs⟩ : ∃ s, construct 80 true = .ok () s := ⟨_, rfl⟩
  obtain ⟨s₁, h₁⟩ : ∃ s', allocate 1 3 true s = .ok ⟨0, 64⟩ s' := by
    cases hs
    exact ⟨_, rfl⟩
  obtain ⟨s₂, h₂⟩ : ∃ s', allocate 1 1 true s₁ = .ok ⟨0, 83⟩ s' := by
    cases hs
    cases h₁
    exact ⟨_, rfl⟩
  refine ⟨_, .allocate 1 true (by decide) trivial (.allocate 3 true (by decide) trivial (.init hs) h₁) h₂, ?_⟩
  intro base hbase hall
  have hdvd := hall _ List.mem_cons_self
  rw [address_dvd (by decide) hbase] at hdvd
  revert hdvd
  decide

end Wtfsc.MemoryPool
