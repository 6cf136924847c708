/-
  Wtfsc.Disk.DiskVector — the two file-backed vectors of src/disk/vector:
  `DiskVector` (disk_vector.h) goes to its stream on every call, `DiskBufferVector`
  (disk_buffer_vector.h) through a buffer pool.

  An element type is its object representation (`Layout`). A read of `DiskVector` that
  ends short leaves `ret` indeterminate (`none`); an access of `DiskBufferVector` that
  leaves its page is undefined behaviour.
-/

import Wtfsc.Disk.BufferPool

namespace Wtfsc.Disk

open Function
open Wtfsc.Cpp

/-- How values of `T` lie in memory: the first `size` bytes determine the value. -/
structure Layout (T : Type) where
  size : Nat
  sizePos : 0 < size
  toBytes : T → Bytes
  ofBytes : Bytes → T
  congr : ∀ a b : Bytes, (∀ k, k < size → a k = b k) → ofBytes a = ofBytes b
  roundTrip : ∀ v, ofBytes (toBytes v) = v

inductive VecOp (T : Type) where
  | put (pos : Nat) (v : T)
  | get (pos : Nat)
  deriving DecidableEq, Repr

def VecOp.pos {T : Type} : VecOp T → Nat
  | .put pos _ => pos
  | .get pos => pos

/-- One-byte elements. -/
def byteLayout : Layout UInt8 where
  size := 1
  sizePos := by decide
  toBytes v := fun _ => v
  ofBytes a := a 0
  congr _ _ h := h 0 (by decide)
  roundTrip _ := rfl

variable {T : Type} (L : Layout T) {N : Nat}

/-- The value of the latest `put` at `pos`. -/
def lastPut (ops : List (VecOp T)) (pos : Nat) : Option T :=
  ops.reverse.findSome? fun
    | .put q v => if q = pos then some v else none
    | .get _ => none

/-- `pos * sizeof(T)` in `size_t`. -/
def byteAddr (pos : Nat) : Nat := size64 ((pos * L.size : Nat) : Int)

/-! ## DiskVector -/

structure DiskVector where
  io : FStream

def DiskVector.open_ (f : File) : DiskVector := ⟨FStream.open_ f⟩

def DiskVector.put (d : DiskVector) (pos : Nat) (v : T) : DiskVector :=
  ⟨(d.io.seekp (int64 (byteAddr L pos))).write (L.toBytes v) L.size⟩

def DiskVector.get (d : DiskVector) (pos : Nat) : DiskVector × Option T :=
  let io := d.io.seekp (int64 (byteAddr L pos))
  let r := io.read (fun _ => 0) L.size
  (⟨r.1⟩, if io.gcount L.size = L.size then some (L.ofBytes r.2) else none)

def vecStep (d : DiskVector) : VecOp T → DiskVector
  | .put pos v => d.put L pos v
  | .get pos => (d.get L pos).1

def vecAfter (d : DiskVector) (ops : List (VecOp T)) : DiskVector := ops.foldl (vecStep L) d

/-! ## DiskBufferVector -/

/-- The page id `get` and `put` pass to `FetchPage`. -/
def pageOf (pos : Nat) : Int := int32 ((byteAddr L pos / pageSize : Nat) : Int)

def offsetOf (pos : Nat) : Nat := byteAddr L pos % pageSize

/-- Write `n` bytes at `off` of the page in frame `f`. -/
def BufferPool.store (b : BufferPool N) (f : Fin N) (off n : Nat) (src : Bytes) : BufferPool N :=
  { b with pages := update b.pages f { b.pages f with
      data := fun k => if off ≤ k ∧ k < off + n then src (k - off) else (b.pages f).data k } }

def bufGet (b : BufferPool N) (pos : Nat) : Exec (BufferPool N × T) :=
  let r := b.fetchPage (pageOf L pos)
  let off := offsetOf L pos
  if off + L.size ≤ pageSize then .ok (r.1, L.ofBytes fun k => (r.1.pages r.2).data (off + k)) else .error .ub

def bufPut (b : BufferPool N) (pos : Nat) (v : T) : Exec (BufferPool N) :=
  let r := b.fetchPage (pageOf L pos)
  let off := offsetOf L pos
  if off + L.size ≤ pageSize then .ok (r.1.store r.2 off L.size (L.toBytes v)) else .error .ub

def bufStep (b : BufferPool N) : VecOp T → Exec (BufferPool N)
  | .put pos v => bufPut L b pos v
  | .get pos => (bufGet L b pos).map Prod.fst

def bufAfter (b : BufferPool N) (ops : List (VecOp T)) : Exec (BufferPool N) := ops.foldlM (bufStep L) b

/-- The pool and the disk manager destroyed (nothing is written back) and opened again
    on the same file. -/
def BufferPool.reopen (b : BufferPool N) : BufferPool N :=
  BufferPool.new b.nonempty (DiskManager.open_ b.diskManager.io.file)

/-! ## The latest put -/

theorem lastPut_put (ops : List (VecOp T)) (q pos : Nat) (v : T) :
    lastPut (ops ++ [.put q v]) pos = if q = pos then some v else lastPut ops pos := by
  unfold lastPut
  rw [List.reverse_append, List.reverse_singleton, List.singleton_append, List.findSome?_cons]
  split
  · rename_i h; split at h <;> simp_all
  · rename_i h; split at h <;> simp_all

theorem lastPut_get (ops : List (VecOp T)) (q pos : Nat) : lastPut (ops ++ [.get q]) pos = lastPut ops pos := by
  unfold lastPut
  rw [List.reverse_append, List.reverse_singleton, List.singleton_append, List.findSome?_cons]

theorem lastPut_mem {ops : List (VecOp T)} {pos : Nat} {v : T} (h : lastPut ops pos = some v) :
    .put pos v ∈ ops := by
  induction ops using List.reverseRecOn with
  | nil => cases h
  | append_singleton ops op ih =>
    cases op with
    | put q w =>
      rw [lastPut_put] at h
      split at h
      · rename_i e; cases h; simp [e]
      · exact List.mem_append_left _ (ih h)
    | get q => rw [lastPut_get] at h; exact List.mem_append_left _ (ih h)

/-! ## Elements of a file -/

/-- The file holds `v` at position `pos`. -/
structure OnDisk (f : File) (pos : Nat) (v : T) : Prop where
  inside : pos * L.size + L.size ≤ f.size
  bytes : ∀ k, k < L.size → f.byte (pos * L.size + k) = L.toBytes v k

theorem onDisk_written (f : File) (pos : Nat) (v : T) :
    OnDisk L (f.write (pos * L.size) L.size (L.toBytes v)) pos v := by
  refine ⟨write_reaches _ _ _ _ L.sizePos, fun k hk => ?_⟩
  rw [write_byte_in _ _ (by omega) (by omega), Nat.add_sub_cancel_left]

/-- Two positions are a whole element apart. -/
theorem positions_apart {pos q : Nat} (h : q ≠ pos) :
    pos * L.size + L.size ≤ q * L.size ∨ q * L.size + L.size ≤ pos * L.size := by
  rcases Nat.lt_or_gt_of_ne h with hlt | hlt
  · right
    rw [← Nat.succ_mul]
    exact Nat.mul_le_mul_right _ hlt
  · left
    rw [← Nat.succ_mul]
    exact Nat.mul_le_mul_right _ hlt

variable {L} in
theorem OnDisk.other {f : File} {pos q : Nat} {v : T} (h : OnDisk L f pos v) (hne : q ≠ pos) (src : Bytes) :
    OnDisk L (f.write (q * L.size) L.size src) pos v := by
  have hapart := positions_apart L hne
  refine ⟨Nat.le_trans h.inside (le_write_size _ _ _ _), fun k hk => ?_⟩
  rw [write_byte_out _ _ (by omega), h.bytes k hk]

section Access

variable {L} {d : DiskVector} {pos : Nat} {v : T}

theorem vecAfter_snoc (d : DiskVector) (ops : List (VecOp T)) (op : VecOp T) :
    vecAfter L d (ops ++ [op]) = vecStep L (vecAfter L d ops) op := by
  unfold vecAfter
  rw [List.foldl_append]
  rfl

theorem seek_file (s : FStream) (off : Int) : (s.seekp off).file = s.file := by
  unfold FStream.seekp
  split
  · rfl
  · split <;> rfl

theorem get_file (d : DiskVector) (pos : Nat) : (d.get L pos).1.io.file = d.io.file := seek_file _ _

theorem seek_element (hs : d.io.fail = false) (h : pos * L.size < 2 ^ 63) :
    d.io.seekp (int64 (byteAddr L pos)) = { d.io with pos := pos * L.size } := by
  rw [byteAddr, size64_natCast (by omega), int64_eq (by omega) (by omega), seekp_good hs (by omega), Int.toNat_natCast]

theorem put_element (hs : d.io.fail = false) (h : pos * L.size < 2 ^ 63) (v : T) :
    (d.put L pos v).io.fail = false ∧
      (d.put L pos v).io.file = d.io.file.write (pos * L.size) L.size (L.toBytes v) := by
  rw [DiskVector.put, seek_element hs h, write_good (s := { d.io with pos := pos * L.size }) _ _ hs]
  exact ⟨hs, rfl⟩

theorem OnDisk.get (h : OnDisk L d.io.file pos v) (hs : d.io.fail = false) (hpos : pos * L.size < 2 ^ 63) :
    (d.get L pos).2 = some v := by
  have hcount : FStream.gcount { d.io with pos := pos * L.size } L.size = L.size := by
    have hin := h.inside
    rw [FStream.gcount, hs, if_neg Bool.false_ne_true]
    dsimp only
    omega
  unfold DiskVector.get
  simp only [seek_element hs hpos, hcount, if_true, FStream.read]
  refine congrArg some ((L.congr _ _ fun k hk => ?_).trans (L.roundTrip v))
  rw [if_pos hk, h.bytes k hk]

end Access

/-! ## Positions -/

/-- Positions whose page offsets fit in an `int`, elements that tile a page. -/
structure Fits (pos : Nat) : Prop where
  divides : L.size ∣ pageSize
  small : pos * L.size < 2 ^ 31

variable {L}

theorem byteAddr_eq {pos : Nat} (h : pos * L.size < 2 ^ 31) : byteAddr L pos = pos * L.size :=
  size64_natCast (by omega)

theorem pageOf_eq {pos : Nat} (h : pos * L.size < 2 ^ 31) : pageOf L pos = ((pos * L.size / pageSize : Nat) : Int) := by
  rw [pageOf, byteAddr_eq h]
  exact int32_eq (by unfold pageSize; omega) (by unfold pageSize; omega)

theorem pageOf_range {pos : Nat} (h : pos * L.size < 2 ^ 31) : 0 ≤ pageOf L pos ∧ pageOf L pos * blockSize < 2 ^ 31 := by
  rw [pageOf_eq h]
  unfold pageSize blockSize
  omega

theorem offset_dvd {pos : Nat} (h : Fits L pos) : L.size ∣ offsetOf L pos := by
  rw [offsetOf, byteAddr_eq h.small]
  exact (Nat.dvd_mod_iff h.divides).mpr ⟨pos, Nat.mul_comm _ _⟩

/-- An element lies inside its page. -/
theorem offset_le {pos : Nat} (h : Fits L pos) : offsetOf L pos + L.size ≤ pageSize := by
  obtain ⟨a, ha⟩ := offset_dvd h
  obtain ⟨c, hc⟩ := h.divides
  have hlt : offsetOf L pos < pageSize := Nat.mod_lt _ (by decide)
  rw [ha, hc] at hlt ⊢
  have : a < c := Nat.lt_of_mul_lt_mul_left hlt
  calc L.size * a + L.size = L.size * (a + 1) := by rw [Nat.mul_succ]
    _ ≤ L.size * c := Nat.mul_le_mul_left _ this

/-- Two elements of a page are the same or apart. -/
theorem offset_apart {pos q : Nat} (h : Fits L pos) (hq : Fits L q) (hne : offsetOf L pos ≠ offsetOf L q) :
    offsetOf L pos + L.size ≤ offsetOf L q ∨ offsetOf L q + L.size ≤ offsetOf L pos := by
  obtain ⟨a, ha⟩ := offset_dvd h
  obtain ⟨c, hc⟩ := offset_dvd hq
  rw [ha, hc] at hne ⊢
  rcases Nat.lt_trichotomy a c with hac | rfl | hac
  · left
    calc L.size * a + L.size = L.size * (a + 1) := by rw [Nat.mul_succ]
      _ ≤ L.size * c := Nat.mul_le_mul_left _ hac
  · exact absurd rfl hne
  · right
    calc L.size * c + L.size = L.size * (c + 1) := by rw [Nat.mul_succ]
      _ ≤ L.size * a := Nat.mul_le_mul_left _ hac

end Wtfsc.Disk
