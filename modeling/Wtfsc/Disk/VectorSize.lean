/-
  Wtfsc.Disk.VectorSize — `DiskVector::size` (see `Wtfsc.Disk.DiskVector`).

  The length of the file goes through an `int` and is then divided by the `size_t`
  `sizeof(T)`, so a length whose low 32 bits are negative becomes one close to 2^64.
  - `size_counts_iff`: after successful puts into an empty file `size()` is one more than
    the greatest position put exactly if the elements up to it take less than 2^31 bytes.
-/

import Wtfsc.Disk.PersistentArray

namespace Wtfsc.Disk

open Wtfsc.Cpp

variable {T : Type} (L : Layout T)

/-- What `size` makes of the answer of `stat`. -/
def sizeFrom (rc : Int) (stSize : Nat) : Nat := if rc = 0 then size64 (int32 stSize) / L.size else size64 (-1)

/-- The file is there, so `stat` finds it. -/
def DiskVector.size (d : DiskVector) : Nat := sizeFrom L 0 d.io.file.size

/-- The puts `ps` into an empty file. -/
def putAll (ps : List (Nat × T)) : DiskVector :=
  vecAfter L (DiskVector.open_ File.empty) (ps.map fun p => .put p.1 p.2)

/-- One more than the greatest position, 0 if there is none. -/
def elements (ps : List (Nat × T)) : Nat := ps.foldl (fun n p => max n (p.1 + 1)) 0

/-- No put failed, and the file has not grown past what an offset can tell. -/
structure Successful (ps : List (Nat × T)) : Prop where
  good : (putAll L ps).io.fail = false
  small : (putAll L ps).io.file.size < 2 ^ 63

variable {L} {ps : List (Nat × T)} {p : Nat × T} {d : DiskVector} {pos : Nat} {v : T}

theorem elements_snoc (ps : List (Nat × T)) (p : Nat × T) : elements (ps ++ [p]) = max (elements ps) (p.1 + 1) := by
  rw [elements, List.foldl_append]
  rfl

theorem putAll_snoc (ps : List (Nat × T)) (p : Nat × T) : putAll L (ps ++ [p]) = (putAll L ps).put L p.1 p.2 := by
  rw [putAll, List.map_append]
  exact vecAfter_snoc _ _ _

theorem lt_elements (hp : p ∈ ps) : p.1 < elements ps := by
  induction ps using List.reverseRecOn with
  | nil => cases hp
  | append_singleton ps q ih =>
    rw [elements_snoc]
    rcases List.mem_append.mp hp with hp | hp
    · exact Nat.lt_of_lt_of_le (ih hp) (Nat.le_max_left _ _)
    · obtain rfl := List.mem_singleton.mp hp
      exact Nat.le_max_right _ _

theorem put_good (h : (d.put L pos v).io.fail = false) : d.io.fail = false ∧ 0 ≤ int64 (byteAddr L pos) := by
  have hs : d.io.fail = false := by
    cases hfail : d.io.fail with
    | false => rfl
    | true =>
      rw [put_failed hfail, hfail] at h
      cases h
  refine ⟨hs, Int.not_lt.mp fun hneg => ?_⟩
  have hseek : d.io.seekp (int64 (byteAddr L pos)) = { d.io with fail := true } := by
    rw [FStream.seekp, hs, if_neg Bool.false_ne_true, if_pos hneg]
  rw [DiskVector.put, hseek] at h
  cases h

theorem putAll_offset (hgood : (putAll L ps).io.fail = false) (hp : p ∈ ps) : 0 ≤ int64 (byteAddr L p.1) := by
  induction ps using List.reverseRecOn with
  | nil => cases hp
  | append_singleton ps q ih =>
    rw [putAll_snoc] at hgood
    obtain ⟨hgood', hoff⟩ := put_good hgood
    rcases List.mem_append.mp hp with hp | hp
    · exact ih hgood' hp
    · obtain rfl := List.mem_singleton.mp hp
      exact hoff

/-- Elements that have offsets fill the file up to the last one. -/
theorem putAll_length (hgood : (putAll L ps).io.fail = false) (hoff : ∀ p ∈ ps, p.1 * L.size < 2 ^ 63) :
    (putAll L ps).io.file.size = elements ps * L.size := by
  induction ps using List.reverseRecOn with
  | nil => exact (Nat.zero_mul _).symm
  | append_singleton ps p ih =>
    rw [putAll_snoc] at hgood ⊢
    obtain ⟨hgood', -⟩ := put_good hgood
    have hlen := ih hgood' fun q hq => hoff q (List.mem_append_left _ hq)
    obtain ⟨-, hfile⟩ := put_element hgood' (hoff p (by simp)) p.2
    have hsize : ((putAll L ps).io.file.write (p.1 * L.size) L.size (L.toBytes p.2)).size =
        max (putAll L ps).io.file.size (p.1 * L.size + L.size) := if_neg (Nat.ne_of_gt L.sizePos)
    rw [hfile, elements_snoc, hsize, hlen, ← Nat.succ_mul]
    exact Nat.mul_max_mul_right _ _ _

/-- A put that did not fail has an offset, or its byte address has wrapped. -/
theorem offset_or_wrap (h : 0 ≤ int64 (byteAddr L pos)) : pos * L.size < 2 ^ 63 ∨ 2 ^ 64 ≤ pos * L.size := by
  by_contra hbetween
  obtain ⟨hlow, hhigh⟩ := not_or.mp hbetween
  rw [byteAddr, size64_natCast (by omega), int64, Int.bmod_def] at h
  split at h <;> omega

theorem sizeFrom_eq (n : Nat) : sizeFrom L 0 n = size64 (int32 n) / L.size := if_pos rfl

/-- A file of `n` elements whose length is an offset: the quotient is `n` only if the length is an `int` too. -/
theorem size_of_length {n : Nat} (hn : n * L.size < 2 ^ 63) : sizeFrom L 0 (n * L.size) = n ↔ n * L.size < 2 ^ 31 := by
  have hsize := L.sizePos
  have hfirst : n = 0 ∨ L.size ≤ n * L.size := by
    rcases Nat.eq_zero_or_pos n with h0 | hpos
    · exact Or.inl h0
    · exact Or.inr (Nat.le_mul_of_pos_left _ hpos)
  rw [sizeFrom_eq, Nat.div_eq_iff hsize]
  rcases hfirst with rfl | hfirst
  · simp [int32, size64]
  · generalize n * L.size = len at *
    unfold int32 size64
    rw [Int.bmod_def]
    split <;> omega

/-- For every element type and every sequence of successful puts. -/
theorem size_counts_iff (h : Successful L ps) : (putAll L ps).size L = elements ps ↔ elements ps * L.size < 2 ^ 31 := by
  obtain ⟨hgood, hsmall⟩ := h
  by_cases hoff : ∀ p ∈ ps, p.1 * L.size < 2 ^ 63
  · rw [DiskVector.size]
    rw [putAll_length hgood hoff] at hsmall ⊢
    exact size_of_length hsmall
  · -- a position whose address has wrapped is past every quotient
    obtain ⟨p, hp, hbig⟩ : ∃ p ∈ ps, ¬p.1 * L.size < 2 ^ 63 := by
      by_contra hno
      exact hoff fun p hp => by_contra fun hbig => hno ⟨p, hp, hbig⟩
    have hwrap := (offset_or_wrap (putAll_offset hgood hp)).resolve_left hbig
    have hlast : p.1 * L.size ≤ elements ps * L.size := Nat.mul_le_mul_right _ (Nat.le_of_lt (lt_elements hp))
    refine iff_of_false (fun hq => ?_) (by omega)
    rw [DiskVector.size, sizeFrom_eq] at hq
    have hle : elements ps * L.size ≤ size64 (int32 (putAll L ps).io.file.size) := hq ▸ Nat.div_mul_le_self _ _
    unfold size64 at hle
    omega

theorem size_counts_iff_sparse : (putAll byteLayout [(5, 7), (70000, 9), (3, 1)]).size byteLayout = 70001 :=
  (size_counts_iff ⟨by decide, by decide⟩).mpr (by decide)

/-- One byte put at position 2^31 - 1. -/
theorem size_past_int :
    Successful byteLayout [(2 ^ 31 - 1, 7)] ∧ elements [(2 ^ 31 - 1, (7 : UInt8))] = 2 ^ 31 ∧
      (putAll byteLayout [(2 ^ 31 - 1, 7)]).size byteLayout = 2 ^ 64 - 2 ^ 31 :=
  ⟨⟨by decide, by decide⟩, by decide, by decide⟩

end Wtfsc.Disk
