/-
  Wtfsc.Disk.BlockCalls — runs of `WriteBlock` and `ReadBlock`, and what the file-backed
  `DiskManager` reads back in them.

  The file holds every block at its place (`after_holds`): `WriteBlock` computes its
  offset in 64 bits. `ReadBlock` does not always get there: it goes to the offset cut to
  an `int`, and only if that is not past the length of the file cut to an `int`.
  - `readBlock_reach`: it reads the block if its offset fits in an `int` and does not
    exceed the length so cut.
  - `readBlock_astray`: otherwise it leaves the buffer, zeroes it, or reads another block.
  - `reads_back_iff`: so whatever data is written comes back exactly if every block read
    was in reach when it was read.
-/

import Mathlib.Data.List.Induction
import Wtfsc.Disk.DiskManager

namespace Wtfsc.Disk

open Wtfsc.Cpp

/-- A call on a disk manager, with its buffer (or without: `BlockCall Unit`). -/
inductive BlockCall (δ : Type) where
  | write (blockId : Int) (blockData : δ)
  | read (blockId : Int) (blockData : δ)
  deriving DecidableEq, Repr

variable {δ : Type}

def BlockCall.id : BlockCall δ → Int
  | .write b _ | .read b _ => b

def BlockCall.shape : BlockCall δ → BlockCall Unit
  | .write b _ => .write b ()
  | .read b _ => .read b ()

/-- The data of the most recent write of block `b`. -/
def lastWrite (calls : List (BlockCall δ)) (b : Int) : Option δ :=
  calls.reverse.findSome? fun
    | .write c x => if c = b then some x else none
    | .read _ _ => none

theorem lastWrite_write (calls : List (BlockCall δ)) (c b : Int) (x : δ) :
    lastWrite (calls ++ [.write c x]) b = if c = b then some x else lastWrite calls b := by
  unfold lastWrite
  rw [List.reverse_append, List.reverse_singleton, List.singleton_append, List.findSome?_cons]
  by_cases h : c = b <;> simp [h]

theorem lastWrite_read (calls : List (BlockCall δ)) (c b : Int) (x : δ) :
    lastWrite (calls ++ [.read c x]) b = lastWrite calls b := by
  unfold lastWrite
  rw [List.reverse_append, List.reverse_singleton, List.singleton_append, List.findSome?_cons]

theorem lastWrite_mem {calls : List (BlockCall δ)} {b : Int} {x : δ} (h : lastWrite calls b = some x) :
    .write b x ∈ calls := by
  induction calls using List.reverseRecOn with
  | nil => cases h
  | append_singleton calls c ih =>
    cases c with
    | write c y =>
      rw [lastWrite_write] at h
      split at h
      · next e => cases h; simp [e]
      · exact List.mem_append_left _ (ih h)
    | read c y =>
      rw [lastWrite_read] at h
      exact List.mem_append_left _ (ih h)

theorem lastWrite_shape (calls : List (BlockCall δ)) (b : Int) :
    (lastWrite (calls.map BlockCall.shape) b).isSome = (lastWrite calls b).isSome := by
  induction calls using List.reverseRecOn with
  | nil => rfl
  | append_singleton calls c ih =>
    rw [List.map_append]
    cases c with
    | write c y =>
      show (lastWrite (_ ++ [.write c ()]) b).isSome = _
      rw [lastWrite_write, lastWrite_write]
      split
      · rfl
      · exact ih
    | read c y =>
      show (lastWrite (_ ++ [.read c ()]) b).isSome = _
      rw [lastWrite_read, lastWrite_read]
      exact ih

/-! ## The file -/

def DiskManager.call (d : DiskManager) : BlockCall Bytes → DiskManager
  | .write b x => d.writeBlock b x
  | .read b x => (d.readBlock b x).1

def DiskManager.after (d : DiskManager) (calls : List (BlockCall Bytes)) : DiskManager := calls.foldl DiskManager.call d

/-- The length of a file of `n` bytes after the calls. -/
def lengthAfter (n : Nat) (calls : List (BlockCall δ)) : Nat :=
  calls.foldl (fun n c => match c with | .write b _ => max n (b.toNat * blockSize + blockSize) | .read _ _ => n) n

theorem lengthAfter_shape (n : Nat) (calls : List (BlockCall δ)) :
    lengthAfter n (calls.map BlockCall.shape) = lengthAfter n calls := by
  rw [lengthAfter, List.foldl_map]
  refine congrFun (congrFun (congrArg List.foldl ?_) n) calls
  funext m c
  cases c <;> rfl

theorem after_snoc (d : DiskManager) (calls : List (BlockCall Bytes)) (c : BlockCall Bytes) :
    d.after (calls ++ [c]) = (d.after calls).call c := by
  rw [DiskManager.after, List.foldl_append]
  rfl

/-- A block id. -/
def IsId (b : Int) : Prop := 0 ≤ b ∧ b < 2 ^ 31

instance (b : Int) : Decidable (IsId b) := inferInstanceAs (Decidable (_ ∧ _))

/-- A write goes to the place of its block. -/
theorem writeBlock_io {d : DiskManager} {b : Int} (x : Bytes) (hg : d.io.fail = false) (hb : IsId b) :
    (d.writeBlock b x).io =
      ⟨d.io.file.write (b.toNat * blockSize) blockSize x, b.toNat * blockSize + blockSize, false⟩ := by
  obtain ⟨h0, hlt⟩ := hb
  have hoff : size64 (size64 b * blockSize : Nat) = b.toNat * blockSize := by
    have : size64 b = b.toNat := by unfold size64; omega
    rw [this]
    exact size64_natCast (by unfold blockSize; omega)
  have hseek : d.io.seekp (int64 (b.toNat * blockSize : Nat)) = ⟨d.io.file, b.toNat * blockSize, false⟩ := by
    rw [int64_eq (by omega) (by unfold blockSize; omega), seekp_good hg (by omega), hg]
    rfl
  show (d.io.seekp (int64 (size64 (size64 b * blockSize : Nat) : Nat))).write x blockSize = _
  rw [hoff, hseek, write_good _ _ rfl]

/-- A read leaves the file alone and the stream good. -/
theorem readBlock_io {d : DiskManager} (b : Int) (x : Bytes) (hg : d.io.fail = false) :
    (d.readBlock b x).1.io.file = d.io.file ∧ (d.readBlock b x).1.io.fail = false := by
  unfold DiskManager.readBlock
  have hfile : ∀ off, (d.io.seekp off).file = d.io.file := fun off => by
    unfold FStream.seekp
    split
    · rfl
    · split <;> rfl
  dsimp only
  split
  · exact ⟨rfl, hg⟩
  split
  · exact ⟨hfile _, rfl⟩
  · -- a full read: the seek has not failed
    next h =>
    refine ⟨hfile _, ?_⟩
    have hf : (d.io.seekp (int32 (b * blockSize))).fail = false := by
      by_contra hf
      have hcount : (d.io.seekp (int32 (b * blockSize))).gcount blockSize = 0 := if_pos (by simpa using hf)
      exact h (by rw [hcount]; decide)
    simp only [FStream.read, hf, Bool.false_or, decide_eq_false_iff_not]
    exact h

theorem readBlock_numWrites (d : DiskManager) (b : Int) (x : Bytes) : (d.readBlock b x).1.numWrites = d.numWrites := by
  unfold DiskManager.readBlock
  dsimp only
  split
  · rfl
  split <;> rfl

theorem call_good {d : DiskManager} {c : BlockCall Bytes} (hg : d.io.fail = false) (hc : IsId c.id) :
    (d.call c).io.fail = false := by
  cases c with
  | write b x => exact congrArg FStream.fail (writeBlock_io x hg hc)
  | read b x => exact (readBlock_io b x hg).2

variable {f : File} {calls : List (BlockCall Bytes)}

theorem after_good (hid : ∀ c ∈ calls, IsId c.id) : ((DiskManager.open_ f).after calls).io.fail = false := by
  induction calls using List.reverseRecOn with
  | nil => rfl
  | append_singleton calls c ih =>
    rw [after_snoc]
    exact call_good (ih fun c hc => hid c (List.mem_append_left _ hc)) (hid c (by simp))

theorem after_length (hid : ∀ c ∈ calls, IsId c.id) :
    ((DiskManager.open_ f).after calls).io.file.size = lengthAfter f.size calls := by
  induction calls using List.reverseRecOn with
  | nil => rfl
  | append_singleton calls c ih =>
    have hid' : ∀ c ∈ calls, IsId c.id := fun c hc => hid c (List.mem_append_left _ hc)
    have hg := after_good (f := f) hid'
    have hlen : lengthAfter f.size (calls ++ [c]) = lengthAfter (lengthAfter f.size calls) [c] := List.foldl_append
    rw [after_snoc, hlen, ← ih hid']
    cases c with
    | write b x =>
      show ((DiskManager.open_ f).after calls |>.writeBlock b x).io.file.size = _
      have hb : IsId b := hid (.write b x) (by simp)
      rw [writeBlock_io x hg hb]
      simp only [File.write, if_neg (show blockSize ≠ 0 by decide)]
      rfl
    | read b x => exact congrArg File.size (readBlock_io b x hg).1

/-- The file holds the most recent data of every block written. -/
theorem after_holds (hid : ∀ c ∈ calls, IsId c.id) {b : Int} {x : Bytes} (hx : lastWrite calls b = some x) :
    b.toNat * blockSize + blockSize ≤ ((DiskManager.open_ f).after calls).io.file.size ∧
      ∀ k, k < blockSize → ((DiskManager.open_ f).after calls).io.file.byte (b.toNat * blockSize + k) = x k := by
  induction calls using List.reverseRecOn with
  | nil => cases hx
  | append_singleton calls c ih =>
    have hid' : ∀ c ∈ calls, IsId c.id := fun c hc => hid c (List.mem_append_left _ hc)
    have hg := after_good (f := f) hid'
    rw [after_snoc]
    cases c with
    | write c y =>
      have hc : IsId c := hid (.write c y) (by simp)
      show _ ≤ ((DiskManager.open_ f).after calls |>.writeBlock c y).io.file.size ∧
        ∀ k, _ → ((DiskManager.open_ f).after calls |>.writeBlock c y).io.file.byte _ = _
      rw [writeBlock_io y hg hc]
      rw [lastWrite_write] at hx
      split at hx
      · next e =>
        subst e
        cases hx
        refine ⟨write_reaches _ _ _ _ (by decide), fun k hk => ?_⟩
        rw [write_byte_in _ _ (by omega) (by omega), Nat.add_sub_cancel_left]
      · next e =>
        obtain ⟨hle, hbytes⟩ := ih hid' hx
        refine ⟨Nat.le_trans hle (le_write_size _ _ _ _), fun k hk => ?_⟩
        have hb : IsId b := hid' _ (lastWrite_mem hx)
        have hne : b.toNat ≠ c.toNat := by
          have := hb.1
          have := hc.1
          omega
        rw [write_byte_out _ _ (by unfold blockSize at hk ⊢; omega), hbytes k hk]
    | read c y =>
      rw [lastWrite_read] at hx
      show _ ≤ ((DiskManager.open_ f).after calls |>.readBlock c y).1.io.file.size ∧
        ∀ k, _ → ((DiskManager.open_ f).after calls |>.readBlock c y).1.io.file.byte _ = _
      rw [(readBlock_io c y hg).1]
      exact ih hid' hx

/-! ## Where a read goes -/

/-- A read of block `b` in a file of `n` bytes goes to the block. -/
def InReach (n : Nat) (b : Int) : Prop := b * blockSize < 2 ^ 31 ∧ b * blockSize ≤ int32 n

theorem readBlock_reach {d : DiskManager} {b : Int} (buf : Bytes) (hg : d.io.fail = false) (h0 : 0 ≤ b)
    (hr : InReach d.io.file.size b) (hsize : b.toNat * blockSize + blockSize ≤ d.io.file.size) {k : Nat}
    (hk : k < blockSize) :
    (d.readBlock b buf).2 k = d.io.file.byte (b.toNat * blockSize + k) := by
  obtain ⟨hlt, hle⟩ := hr
  have hoff : int32 (b * blockSize) = b * blockSize := int32_eq (by unfold blockSize; omega) hlt
  have hseek : d.io.seekp (b * blockSize) = { d.io with pos := b.toNat * blockSize } := by
    rw [seekp_good hg (by unfold blockSize; omega)]
    congr 1
    unfold blockSize
    omega
  have hcount : FStream.gcount { d.io with pos := b.toNat * blockSize } blockSize = blockSize := by
    simp only [FStream.gcount, hg, Bool.false_eq_true, if_false]
    omega
  unfold DiskManager.readBlock
  simp only [hoff, DiskManager.getFileSize, if_neg (Int.not_lt.mpr hle), hseek, hcount, Nat.lt_irrefl, if_false,
    FStream.read, if_pos hk]

/-- Out of reach, a read leaves the buffer, zeroes it, or finds what lies before the block. -/
theorem readBlock_astray {d : DiskManager} {b : Int} (buf : Bytes) (hg : d.io.fail = false) (h0 : 0 ≤ b)
    (hr : ¬InReach d.io.file.size b) :
    (d.readBlock b buf).2 0 = buf 0 ∨ (d.readBlock b buf).2 0 = 0 ∨
      (int32 (b * blockSize)).toNat < b.toNat * blockSize ∧
        (d.readBlock b buf).2 0 = d.io.file.byte (int32 (b * blockSize)).toNat := by
  unfold DiskManager.readBlock
  dsimp only
  by_cases hpast : int32 (b * blockSize) > d.getFileSize
  · rw [if_pos hpast]
    exact .inl rfl
  rw [if_neg hpast]
  by_cases hneg : int32 (b * blockSize) < 0
  · -- the seek fails, nothing is read, the buffer is zeroed
    have hseek : d.io.seekp (int32 (b * blockSize)) = { d.io with fail := true } := by
      rw [FStream.seekp, hg, if_neg (by decide), if_pos hneg]
    have hcount : (d.io.seekp (int32 (b * blockSize))).gcount blockSize = 0 := by rw [hseek]; rfl
    rw [hcount, if_pos (by decide)]
    exact .inr (.inl rfl)
  · have hseek : d.io.seekp (int32 (b * blockSize)) = { d.io with pos := (int32 (b * blockSize)).toNat } :=
      seekp_good hg (Int.not_lt.mp hneg)
    have hbefore : (int32 (b * blockSize)).toNat < b.toNat * blockSize := by
      have hle := int32_lt (b * blockSize)
      by_contra hge
      have hlt : b * blockSize < 2 ^ 31 := by unfold blockSize at *; omega
      refine hr ⟨hlt, ?_⟩
      rw [int32_eq (by unfold blockSize; omega) hlt] at hpast
      exact Int.not_lt.mp hpast
    rw [hseek]
    generalize hcount : FStream.gcount _ blockSize = got
    by_cases hgot : got < blockSize
    · rw [if_pos hgot]
      by_cases hz : got = 0
      · exact .inr (.inl (if_pos ⟨Nat.le_of_eq hz, by decide⟩))
      · refine .inr (.inr ⟨hbefore, ?_⟩)
        show (if got ≤ 0 ∧ 0 < blockSize then 0 else _) = _
        rw [if_neg (by omega)]
        simp [FStream.read, hcount, Nat.pos_of_ne_zero hz]
    · rw [if_neg hgot]
      refine .inr (.inr ⟨hbefore, ?_⟩)
      have hpos : 0 < got := Nat.lt_of_lt_of_le (by decide) (Nat.not_lt.mp hgot)
      simp [FStream.read, hcount, hpos]

/-- Every byte of the file was there from the start or comes from a write of its block. -/
theorem after_byte (hid : ∀ c ∈ calls, IsId c.id) (i : Nat) :
    ((DiskManager.open_ f).after calls).io.file.byte i = f.byte i ∨
      ∃ b x, .write b x ∈ calls ∧ b.toNat * blockSize ≤ i ∧
        ((DiskManager.open_ f).after calls).io.file.byte i = x (i - b.toNat * blockSize) := by
  induction calls using List.reverseRecOn with
  | nil => exact .inl rfl
  | append_singleton calls c ih =>
    have hid' : ∀ c ∈ calls, IsId c.id := fun c hc => hid c (List.mem_append_left _ hc)
    have hg := after_good (f := f) hid'
    have hold : ∀ {j : UInt8}, ((DiskManager.open_ f).after calls).io.file.byte i = j →
        j = f.byte i ∨ ∃ b x, .write b x ∈ calls ++ [c] ∧ b.toNat * blockSize ≤ i ∧ j = x (i - b.toNat * blockSize) := by
      intro _ e
      subst e
      rcases ih hid' with h | ⟨b, x, hm, hle, h⟩
      · exact .inl h
      · exact .inr ⟨b, x, List.mem_append_left _ hm, hle, h⟩
    rw [after_snoc]
    cases c with
    | write c y =>
      have hc : IsId c := hid (.write c y) (by simp)
      have hio : ((DiskManager.open_ f).after calls |>.call (.write c y)).io.file = _ :=
        congrArg FStream.file (writeBlock_io y hg hc)
      rw [hio]
      by_cases hin : c.toNat * blockSize ≤ i ∧ i < c.toNat * blockSize + blockSize
      · rw [write_byte_in _ _ hin.1 hin.2]
        exact .inr ⟨c, y, by simp, hin.1, rfl⟩
      · rw [write_byte_out _ _ (by omega)]
        exact hold rfl
    | read c y =>
      have hio : ((DiskManager.open_ f).after calls |>.call (.read c y)).io.file = _ := (readBlock_io c y hg).1
      rw [hio]
      exact hold rfl

/-! ## Reading back -/

/-- Every read of a block written before fills its buffer with the most recent data. -/
def ReadsBack (f : File) (calls : List (BlockCall Bytes)) : Prop :=
  ∀ pre b buf x, pre ++ [.read b buf] <+: calls → lastWrite pre b = some x →
    ∀ k, k < blockSize → (((DiskManager.open_ f).after pre).readBlock b buf).2 k = x k

/-- Every block is in reach when it is read after a write, in a file of `n` bytes at first. -/
def ReadsInReach (n : Nat) (shape : List (BlockCall Unit)) : Prop :=
  ∀ pre b, pre ++ [.read b ()] <+: shape → (lastWrite pre b).isSome = true → InReach (lengthAfter n pre) b

theorem ReadsInReach.readsBack (h : ReadsInReach f.size (calls.map BlockCall.shape)) (hid : ∀ c ∈ calls, IsId c.id) :
    ReadsBack f calls := by
  intro pre b buf x hp hx k hk
  have hpre : ∀ c ∈ pre, IsId c.id := fun c hc => hid c (hp.subset (List.mem_append_left _ hc))
  have hshape : pre.map BlockCall.shape ++ [.read b ()] <+: calls.map BlockCall.shape := by
    have := hp.map BlockCall.shape
    rwa [List.map_append] at this
  have hreach := h _ b hshape (by rw [lastWrite_shape, hx]; rfl)
  rw [lengthAfter_shape, ← after_length (f := f) hpre] at hreach
  obtain ⟨hsize, hbytes⟩ := after_holds (f := f) hpre hx
  have hb : IsId b := hpre _ (lastWrite_mem hx)
  rw [readBlock_reach buf (after_good hpre) hb.1 hreach hsize hk, hbytes k hk]

/-- The call that writes the byte `v` all over block `b`, or zeros over another. -/
def paint (b : Int) (v : UInt8) : BlockCall Unit → BlockCall Bytes
  | .write c _ => .write c fun _ => if c = b then v else 0
  | .read c _ => .read c fun _ => 0

theorem paint_shape (b : Int) (v : UInt8) (c : BlockCall Unit) : (paint b v c).shape = c := by
  cases c <;> rfl

theorem map_paint_shape (b : Int) (v : UInt8) (shape : List (BlockCall Unit)) :
    (shape.map (paint b v)).map BlockCall.shape = shape := by
  rw [List.map_map]
  exact (List.map_congr_left fun c _ => paint_shape b v c).trans (List.map_id _)

theorem shape_id (c : BlockCall δ) : c.shape.id = c.id := by
  cases c <;> rfl

theorem lastWrite_paint {b : Int} {v : UInt8} {pre : List (BlockCall Unit)} {x : Bytes}
    (h : lastWrite (pre.map (paint b v)) b = some x) : x = fun _ => v := by
  obtain ⟨c, -, hc⟩ := List.mem_map.mp (lastWrite_mem h)
  cases c with
  | write c _ => cases hc; simp
  | read c _ => cases hc

/-- Whatever data is written comes back exactly if every block was in reach when it was read. -/
theorem reads_back_iff (f : File) (shape : List (BlockCall Unit)) (hid : ∀ c ∈ shape, IsId c.id) :
    (∀ calls, calls.map BlockCall.shape = shape → ReadsBack f calls) ↔ ReadsInReach f.size shape := by
  constructor
  · intro h pre b hp hw
    by_contra hr
    have hb : IsId b := hid (.read b ()) (hp.subset (by simp))
    -- paint the block with a byte that does not lie where the read may go
    obtain ⟨v, hv0, hv⟩ : ∃ v : UInt8, 0 ≠ v ∧ f.byte (int32 (b * blockSize)).toNat ≠ v := by
      by_cases h1 : f.byte (int32 (b * blockSize)).toNat = 1
      · exact ⟨2, by decide, by rw [h1]; decide⟩
      · exact ⟨1, by decide, h1⟩
    have hid' : ∀ c ∈ pre.map (paint b v), IsId c.id := by
      intro c hc
      obtain ⟨c, hm, rfl⟩ := List.mem_map.mp hc
      rw [← shape_id, paint_shape]
      exact hid c (hp.subset (List.mem_append_left _ hm))
    have hp' : pre.map (paint b v) ++ [.read b fun _ => 0] <+: shape.map (paint b v) := by
      have := hp.map (paint b v)
      rwa [List.map_append] at this
    obtain ⟨x, hx⟩ : ∃ x, lastWrite (pre.map (paint b v)) b = some x := by
      rwa [← Option.isSome_iff_exists, ← lastWrite_shape, map_paint_shape]
    have hread := h _ (map_paint_shape b v shape) _ b _ x hp' hx 0 (by decide)
    rw [lastWrite_paint hx] at hread
    have hfar : ¬InReach ((DiskManager.open_ f).after (pre.map (paint b v))).io.file.size b := by
      rwa [after_length hid', ← lengthAfter_shape, map_paint_shape]
    rcases readBlock_astray (fun _ => 0) (after_good hid') hb.1 hfar with he | he | ⟨hlt, he⟩
    · exact hv0 (he.symm.trans hread)
    · exact hv0 (he.symm.trans hread)
    · rcases after_byte (f := f) hid' (int32 (b * blockSize)).toNat with hf | ⟨c, y, hm, hle, hy⟩
      · exact hv (hf.symm.trans (he.symm.trans hread))
      · -- another block's: it was painted zero
        obtain ⟨c', -, hc⟩ := List.mem_map.mp hm
        have hne : c ≠ b := by
          intro e
          subst e
          omega
        cases c' with
        | read d _ => cases hc
        | write d _ =>
          cases hc
          rw [he, hy, if_neg hne] at hread
          exact hv0 hread
  · intro h calls e'
    subst e'
    exact h.readsBack fun c hc => shape_id c ▸ hid _ (List.mem_map_of_mem hc)

/-- The last block whose end fits in an `int`. -/
theorem reads_back_iff_last : ReadsBack File.empty [.write 524286 fun _ => 7, .read 524286 fun _ => 0] := by
  refine (reads_back_iff File.empty [.write 524286 (), .read 524286 ()] (by decide)).mpr ?_ _ rfl
  intro pre b hp _
  obtain ⟨t, ht⟩ := hp
  obtain _ | ⟨c, _ | ⟨d, pre⟩⟩ := pre
  · cases ht
  · cases ht
    exact ⟨by decide, by decide⟩
  · cases pre <;> cases ht

/-- Block 524287 ends at 2^31: the length of the file is negative as an `int`, and block 0 is past it. -/
theorem low_block_lost :
    ¬ReadsBack File.empty [.write 0 fun _ => 1, .write 524287 fun _ => 1, .read 0 fun _ => 0] := by
  intro h
  have := h [.write 0 fun _ => 1, .write 524287 fun _ => 1] 0 (fun _ => 0) (fun _ => 1) (List.prefix_refl _) rfl 0
    (by decide)
  exact absurd this (by decide)

end Wtfsc.Disk
