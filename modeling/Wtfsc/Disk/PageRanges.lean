/-
  Wtfsc.Disk.PageRanges — which bytes of which page the elements of a `DiskBufferVector`
  take (see `Wtfsc.Disk.DiskVector`).

  An element starts at byte `pos * sizeof(T)`; the page id is that over 4096, narrowed to
  32 bits, so 2^44 bytes have a page of their own. `put` and `get` do not look at where the
  element ends.
  - `separate_iff`: two elements are inside their pages and apart exactly if neither lies
    across a multiple of 4096 and their byte addresses are an element apart modulo 2^44.
  - `separate_iff_tiling`: for sizes that divide 4096 the positions must differ modulo
    `2^44 / sizeof(T)`.
-/

import Mathlib.Data.Nat.ModEq
import Wtfsc.Disk.DiskVector

namespace Wtfsc.Disk

open Wtfsc.Cpp

variable {T : Type} (L : Layout T)

/-- The bytes from `offset` on are bytes of the page buffer. -/
def InPage (pos : Nat) : Prop := offsetOf L pos + L.size ≤ pageSize

/-- `put` and `get` at `pos` access byte `k` of the page. -/
def Accesses (pos : Nat) (page : Int) (k : Nat) : Prop :=
  page = pageOf L pos ∧ offsetOf L pos ≤ k ∧ k < offsetOf L pos + L.size

/-- The elements are inside their pages, and different elements have no byte in common. -/
def Separate (p q : Nat) : Prop :=
  InPage L p ∧ InPage L q ∧ (p ≠ q → ∀ page k, ¬(Accesses L p page k ∧ Accesses L q page k))

/-- The first and the last byte of the element are in one page of the vector. -/
def Whole (pos : Nat) : Prop := pos * L.size / pageSize = (pos * L.size + (L.size - 1)) / pageSize

/-- As many bytes as there are page ids for. -/
def idBytes : Nat := 2 ^ 32 * pageSize

/-- From one element to the other it is an element's size at least, both ways round. -/
def FarApart (p q : Nat) : Prop :=
  (L.size : Int) ≤ ((p * L.size : Nat) - (q * L.size : Nat) : Int) % idBytes ∧
    ((p * L.size : Nat) - (q * L.size : Nat) : Int) % idBytes + L.size ≤ idBytes

instance (pos : Nat) : Decidable (InPage L pos) := Nat.decLe _ _

instance (pos : Nat) (page : Int) (k : Nat) : Decidable (Accesses L pos page k) := instDecidableAnd

instance (pos : Nat) : Decidable (Whole L pos) := Nat.decEq _ _

instance (p q : Nat) : Decidable (FarApart L p q) := instDecidableAnd

variable {L} {p q pos : Nat}

/-! ## Pages and offsets -/

theorem int32_inj_iff {x y : Int} : int32 x = int32 y ↔ x % 2 ^ 32 = y % 2 ^ 32 := by
  unfold int32
  rw [Int.bmod_def, Int.bmod_def]
  split <;> split <;> omega

theorem offsetOf_eq (h : pos * L.size < 2 ^ 64) : offsetOf L pos = pos * L.size % pageSize := by
  rw [offsetOf, byteAddr, size64_natCast h]

theorem pageOf_eq_iff (hp : p * L.size < 2 ^ 64) (hq : q * L.size < 2 ^ 64) :
    pageOf L p = pageOf L q ↔ p * L.size / pageSize % 2 ^ 32 = q * L.size / pageSize % 2 ^ 32 := by
  rw [pageOf, pageOf, byteAddr, byteAddr, size64_natCast hp, size64_natCast hq, int32_inj_iff]
  omega

theorem inPage_iff (h : pos * L.size < 2 ^ 64) : InPage L pos ↔ Whole L pos := by
  have hsize := L.sizePos
  rw [InPage, Whole, offsetOf_eq h]
  unfold pageSize
  omega

/-- Two elements have no byte in common if their pages or their offsets are apart. -/
theorem apart_iff : (∀ page k, ¬(Accesses L p page k ∧ Accesses L q page k)) ↔
    (pageOf L p = pageOf L q → offsetOf L p + L.size ≤ offsetOf L q ∨ offsetOf L q + L.size ≤ offsetOf L p) := by
  have hsize := L.sizePos
  constructor
  · intro h heq
    by_contra hover
    -- the later of the two first bytes is in both
    refine h (pageOf L p) (max (offsetOf L p) (offsetOf L q)) ⟨⟨rfl, ?_, ?_⟩, heq, ?_, ?_⟩ <;> omega
  · intro h page k hx
    obtain ⟨⟨hpage, hp, hp'⟩, hpage', hq, hq'⟩ := hx
    rcases h (hpage.symm.trans hpage') with h | h <;> omega

/-- Inside their pages, the elements are apart on the pages exactly if they are among all bytes that have a page id. -/
theorem farApart_iff (hp : p * L.size < 2 ^ 64) (hq : q * L.size < 2 ^ 64) (hinP : InPage L p) (hinQ : InPage L q) :
    (pageOf L p = pageOf L q → offsetOf L p + L.size ≤ offsetOf L q ∨ offsetOf L q + L.size ≤ offsetOf L p) ↔
      FarApart L p q := by
  have hsize := L.sizePos
  unfold InPage at hinP hinQ
  rw [pageOf_eq_iff hp hq, FarApart]
  rw [offsetOf_eq hp] at hinP ⊢
  rw [offsetOf_eq hq] at hinQ ⊢
  have hbytes : (idBytes : Int) = 2 ^ 44 := rfl
  rw [hbytes]
  generalize p * L.size = P, q * L.size = Q, L.size = s at *
  unfold pageSize at *
  omega

/-- For every element size and any two positions whose byte addresses are `size_t`s. -/
theorem separate_iff (hp : p * L.size < 2 ^ 64) (hq : q * L.size < 2 ^ 64) :
    Separate L p q ↔ Whole L p ∧ Whole L q ∧ (p = q ∨ FarApart L p q) := by
  rw [Separate, ← inPage_iff hp, ← inPage_iff hq]
  refine and_congr_right fun hinP => and_congr_right fun hinQ => ?_
  rw [apart_iff, farApart_iff hp hq hinP hinQ, or_iff_not_imp_left]

/-- Elements of `n` bytes. -/
def arrayLayout (n : Nat) (h : 0 < n) : Layout (Fin n → UInt8) where
  size := n
  sizePos := h
  toBytes v := fun k => if hk : k < n then v ⟨k, hk⟩ else 0
  ofBytes a := fun k => a k
  congr _ _ h := funext fun k => h k k.isLt
  roundTrip _ := funext fun k => dif_pos k.isLt

theorem separate_iff_eight : Separate (arrayLayout 8 (by decide)) 511 512 :=
  (separate_iff (by decide) (by decide)).mpr ⟨by decide, by decide, Or.inr (by decide)⟩

/-- An element of three bytes lies across the end of the first page; bytes 0 and 2^44 are the same byte of page 0. -/
theorem bytes_of_two_elements :
    (1365 * 3 < 2 ^ 64 ∧ ¬InPage (arrayLayout 3 (by decide)) 1365) ∧
      2 ^ 44 * 1 < 2 ^ 64 ∧ Accesses (arrayLayout 1 (by decide)) 0 0 0 ∧ Accesses (arrayLayout 1 (by decide)) (2 ^ 44) 0 0 :=
  ⟨⟨by decide, by decide⟩, by decide, by decide, by decide⟩

/-! ## Sizes that divide a page -/

/-- Elements that tile a page never lie across its end. -/
theorem whole_of_dvd (hdvd : L.size ∣ pageSize) (pos : Nat) : Whole L pos := by
  obtain ⟨c, hc⟩ := hdvd
  have hsize := L.sizePos
  have hfirst : pos * L.size / pageSize = pos / c := by rw [hc, Nat.mul_comm pos, Nat.mul_div_mul_left _ _ hsize]
  have hlast : (pos * L.size + (L.size - 1)) / pageSize = pos / c := by
    have hlt : L.size - 1 < L.size := by omega
    rw [hc, ← Nat.div_div_eq_div_mul, Nat.mul_comm pos, Nat.mul_add_div hsize, Nat.div_eq_of_lt hlt, Nat.add_zero]
  exact hfirst.trans hlast.symm

theorem farApart_of_dvd (hdvd : L.size ∣ pageSize) : FarApart L p q ↔ ¬p ≡ q [MOD idBytes / L.size] := by
  have hsize := L.sizePos
  obtain ⟨c, hc⟩ : L.size ∣ idBytes := Dvd.dvd.mul_left hdvd _
  have hsize' : (0 : Int) < L.size := by omega
  have hcpos : (0 : Int) < c := by
    have hpos : 0 < L.size * c := hc ▸ Nat.mul_pos (by decide) (by decide)
    exact Int.natCast_pos.mpr (Nat.pos_of_mul_pos_left hpos)
  have hmod : ((p * L.size : Nat) - (q * L.size : Nat) : Int) % idBytes = L.size * (((p : Int) - q) % c) := by
    rw [hc, Int.natCast_mul, Int.natCast_mul, Int.natCast_mul, ← Int.sub_mul, Int.mul_comm _ (L.size : Int),
      Int.mul_emod_mul_of_pos _ _ hsize']
  have hlt := Int.emod_lt_of_pos ((p : Int) - q) hcpos
  have hge := Int.emod_nonneg ((p : Int) - q) (Int.ne_of_gt hcpos)
  rw [FarApart, hmod, Nat.ModEq.comm, Nat.modEq_iff_dvd, Int.dvd_iff_emod_eq_zero, hc, Nat.mul_div_cancel_left _ hsize,
    Int.natCast_mul]
  generalize ((p : Int) - q) % c = t at *
  -- `t` elements from one to the other, of the `c` that there are page ids for
  constructor
  · intro hx e
    obtain ⟨h, -⟩ := hx
    subst e
    omega
  · intro ht
    have hfirst : (L.size : Int) * 1 ≤ L.size * t := Int.mul_le_mul_of_nonneg_left (by omega) (by omega)
    have hlast : (L.size : Int) * (t + 1) ≤ L.size * c := Int.mul_le_mul_of_nonneg_left (by omega) (by omega)
    rw [Int.mul_add] at hlast
    constructor <;> omega

/-- For sizes that divide a page: exactly the positions of one residue modulo `2^44 / sizeof(T)` share their bytes. -/
theorem separate_iff_tiling (hdvd : L.size ∣ pageSize) (hp : p * L.size < 2 ^ 64) (hq : q * L.size < 2 ^ 64) :
    Separate L p q ↔ (p ≡ q [MOD idBytes / L.size] → p = q) := by
  rw [separate_iff hp hq, farApart_of_dvd hdvd, and_iff_right (whole_of_dvd hdvd p), and_iff_right (whole_of_dvd hdvd q)]
  tauto

end Wtfsc.Disk
