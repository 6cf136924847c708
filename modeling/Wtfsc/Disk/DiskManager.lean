/-
  Wtfsc.Disk.DiskManager — the block file of src/disk/vector/disk_manager.cpp
  (src/disk/bustub/disk_manager.cpp has the same functions).

  `WriteBlock` computes its offset in `size_t`, `ReadBlock` in `int`, and `ReadBlock`
  compares it with a file size narrowed to `int`. The product overflows from block 2^19
  on, which the language leaves undefined; here it wraps as two's complement does, and
  what is proved of the bytes read is about offsets that are an `int`, or about such a
  machine (`reads_back_iff`). A read past the end of the file leaves the buffer as it
  was; a short read zeroes the rest.
-/

import Wtfsc.Disk.Stream

namespace Wtfsc.Disk

open Wtfsc.Cpp

def blockSize : Nat := 4096

structure DiskManager where
  io : FStream
  numWrites : Nat

/-- `DiskManager(file_name)` on a file with content `f`. -/
def DiskManager.open_ (f : File) : DiskManager := ⟨FStream.open_ f, 0⟩

def DiskManager.getFileSize (d : DiskManager) : Int := int32 d.io.file.size

def DiskManager.writeBlock (d : DiskManager) (blockId : Int) (blockData : Bytes) : DiskManager :=
  let offset := size64 (size64 blockId * blockSize)
  { io := (d.io.seekp (int64 offset)).write blockData blockSize, numWrites := d.numWrites + 1 }

def DiskManager.readBlock (d : DiskManager) (blockId : Int) (blockData : Bytes) : DiskManager × Bytes :=
  let offset := int32 (blockId * blockSize)
  if offset > d.getFileSize then (d, blockData)
  else
    let io₁ := d.io.seekp offset
    let readCount := io₁.gcount blockSize
    let r := io₁.read blockData blockSize
    if readCount < blockSize then
      ({ d with io := r.1.clear }, fun k => if readCount ≤ k ∧ k < blockSize then 0 else r.2 k)
    else ({ d with io := r.1 }, r.2)

/-! ## Reads of an empty file -/

/-- On an empty file only block 0 is not past the end: it reads as zeros, and every
    other block leaves the buffer alone. -/
theorem readBlock_empty {d : DiskManager} {b : Int} (data : Bytes) (hf : d.io.file = File.empty)
    (hg : d.io.fail = false) (h0 : 0 ≤ b) (hb : b * blockSize < 2 ^ 31) :
    (d.readBlock b data).1.io.file = File.empty ∧ (d.readBlock b data).1.io.fail = false ∧
      ∀ k, k < blockSize → (d.readBlock b data).2 k = if b = 0 then 0 else data k := by
  have hsz : d.getFileSize = 0 := by
    unfold DiskManager.getFileSize
    rw [hf, empty_size]; exact int32_eq (by decide) (by decide)
  have hoff : int32 (b * blockSize) = b * blockSize :=
    int32_eq (by unfold blockSize at hb ⊢; omega) hb
  unfold DiskManager.readBlock
  simp only [hoff, hsz]
  by_cases hb0 : b = 0
  · subst hb0
    have hs : d.io.seekp ((0 : Int) * blockSize) = { d.io with pos := 0 } := by
      rw [Int.zero_mul]; exact seekp_good hg (by decide)
    have hgc : (d.io.seekp ((0 : Int) * blockSize)).gcount blockSize = 0 := by
      rw [hs]; simp [FStream.gcount, hg, hf]
    rw [if_neg (by simp), hgc, if_pos (by decide)]
    refine ⟨?_, rfl, fun k hk => ?_⟩
    · simp only [FStream.read, FStream.clear, hs, hf]
    · simp [hk]
  · rw [if_pos (by unfold blockSize; omega)]
    exact ⟨hf, hg, fun k _ => by rw [if_neg hb0]⟩

end Wtfsc.Disk
