/-
  Wtfsc.Matrix.RowMajor — the dense `Matrix` of src/matrix/matrix.cpp.

  One vector has the cells row after row. The number of cells and the place of a cell are
  computed in `size_t`, so both wrap; a cell is not checked to be inside, and a vector of
  more than `max_size()` elements is refused.
  - `row_major_iff`: with coordinates inside the dimensions every run of writes and reads is
    that of a function of two arguments exactly when there are no more cells than a vector
    can have. With more the constructor throws, unless their number has wrapped to one that
    it takes; then some cell is outside the vector.
-/

import Mathlib.Data.List.Induction
import Mathlib.Logic.Function.Basic
import Wtfsc.Cpp

namespace Wtfsc.RowMajor

open Function
open Wtfsc.Cpp

structure Matrix where
  data : List Int
  nRows : Nat
  nCols : Nat
  deriving DecidableEq, Repr

/-- `std::vector<int>().max_size()`: `PTRDIFF_MAX / sizeof(int)` -/
def maxSize : Nat := 2 ^ 61 - 1

def lengthError : Fault := .throws "std::length_error"

/-- `Matrix(n_rows, n_cols)` -/
def Matrix.new (nRows nCols : Nat) : Exec Matrix :=
  if maxSize < size64 (nRows * nCols) then .error lengthError
  else .ok ⟨List.replicate (size64 (nRows * nCols)) 0, nRows, nCols⟩

/-- `i * n_cols + j` -/
def Matrix.index (m : Matrix) (i j : Nat) : Nat := size64 (size64 (i * m.nCols) + j)

/-- `m(i, j)` -/
def Matrix.get (m : Matrix) (i j : Nat) : Exec Int := at_ m.data (m.index i j)

/-- `m(i, j) = v` -/
def Matrix.set (m : Matrix) (i j : Nat) (v : Int) : Exec Matrix := do
  let data ← setAt m.data (m.index i j) v
  .ok { m with data := data }

structure Write where
  row : Nat
  col : Nat
  val : Int
  deriving DecidableEq, Repr

def Matrix.setAll (m : Matrix) (writes : List Write) : Exec Matrix := writes.foldlM (fun m w => m.set w.row w.col w.val) m

def Inside (nRows nCols : Nat) (w : Write) : Prop := w.row < nRows ∧ w.col < nCols

/-- The cells after the writes. -/
def cells (writes : List Write) : Nat → Nat → Int :=
  writes.foldl (fun c w => update c w.row (update (c w.row) w.col w.val)) fun _ _ => 0

/-- There is such a matrix; whatever is written inside is read back, and nothing else. -/
def Behaves (nRows nCols : Nat) : Prop :=
  ∃ m₀, Matrix.new nRows nCols = .ok m₀ ∧ ∀ writes : List Write, (∀ w ∈ writes, Inside nRows nCols w) →
    ∃ m, m₀.setAll writes = .ok m ∧ ∀ i j, i < nRows → j < nCols → m.get i j = .ok (cells writes i j)

variable {nRows nCols i j k l : Nat} {m m₀ : Matrix} {writes : List Write}

/-! ## Places -/

theorem place_lt (hi : i < nRows) (hj : j < nCols) : i * nCols + j < nRows * nCols := by
  have hle : (i + 1) * nCols ≤ nRows * nCols := Nat.mul_le_mul_right _ hi
  rw [Nat.add_mul, Nat.one_mul] at hle
  omega

theorem place_inj (hj : j < nCols) (hl : l < nCols) (h : i * nCols + j = k * nCols + l) : i = k ∧ j = l := by
  have hpos : 0 < nCols := Nat.zero_lt_of_lt hj
  have hdiv := congrArg (· / nCols) h
  simp only [Nat.mul_comm _ nCols, Nat.mul_add_div hpos, Nat.div_eq_of_lt hj, Nat.div_eq_of_lt hl, Nat.add_zero] at hdiv
  subst hdiv
  exact ⟨rfl, Nat.add_left_cancel h⟩

theorem index_eq (hc : m.nCols = nCols) (h : i * nCols + j < 2 ^ 64) : m.index i j = i * nCols + j := by
  have hrow : size64 ((i * m.nCols : Nat) : Int) = i * nCols := by
    rw [hc]
    exact size64_natCast (by omega)
  unfold Matrix.index
  rw [← Int.natCast_mul, hrow, ← Int.natCast_add]
  exact size64_natCast h

/-! ## Without wrapping -/

structure Rep (m : Matrix) (nRows nCols : Nat) (c : Nat → Nat → Int) : Prop where
  width : m.nCols = nCols
  length : m.data.length = nRows * nCols
  cell : ∀ i j, i < nRows → j < nCols → m.data[i * nCols + j]? = some (c i j)

theorem rep_new (h : nRows * nCols ≤ maxSize) :
    ∃ m, Matrix.new nRows nCols = .ok m ∧ Rep m nRows nCols fun _ _ => 0 := by
  have hsize : size64 ((nRows : Int) * nCols) = nRows * nCols := by
    rw [← Int.natCast_mul]
    exact size64_natCast (Nat.lt_of_le_of_lt h (by decide))
  refine ⟨_, by rw [Matrix.new, hsize, if_neg (Nat.not_lt.mpr h)], rfl, List.length_replicate, fun i j hi hj => ?_⟩
  rw [List.getElem?_replicate, if_pos (place_lt hi hj)]

theorem Rep.get {c : Nat → Nat → Int} (h : Rep m nRows nCols c) (hn : nRows * nCols < 2 ^ 64) (hi : i < nRows) (hj : j < nCols) :
    m.get i j = .ok (c i j) := by
  have hlt := place_lt hi hj
  rw [Matrix.get, index_eq h.width (Nat.lt_trans hlt hn), at_, if_pos (Int.natCast_nonneg _), Int.toNat_natCast, h.cell i j hi hj]
  rfl

theorem Rep.set {c : Nat → Nat → Int} (h : Rep m nRows nCols c) (hn : nRows * nCols < 2 ^ 64) (hi : i < nRows) (hj : j < nCols)
    (v : Int) : ∃ m', m.set i j v = .ok m' ∧ Rep m' nRows nCols (update c i (update (c i) j v)) := by
  have hlt := place_lt hi hj
  have hin : (0 : Int) ≤ (i * nCols + j : Nat) ∧ ((i * nCols + j : Nat) : Int) < m.data.length := by
    rw [h.length]
    omega
  refine ⟨{ m with data := m.data.set (i * nCols + j) v }, ?_, h.width, ?_, fun k l hk hl => ?_⟩
  · rw [Matrix.set, index_eq h.width (Nat.lt_trans hlt hn), setAt, if_pos hin, Int.toNat_natCast]
    rfl
  · rw [List.length_set, h.length]
  · by_cases he : i * nCols + j = k * nCols + l
    · obtain ⟨rfl, rfl⟩ := place_inj hj hl he
      rw [update_self, update_self, List.getElem?_set_self (by rw [h.length]; exact hlt)]
    · rw [List.getElem?_set_ne he, h.cell k l hk hl]
      by_cases hki : k = i
      · subst hki
        have hne : l ≠ j := fun e => he (by rw [e])
        rw [update_self, update_of_ne hne]
      · rw [update_of_ne hki]

theorem rep_setAll (h₀ : Rep m₀ nRows nCols fun _ _ => 0) (hn : nRows * nCols < 2 ^ 64)
    (hin : ∀ w ∈ writes, Inside nRows nCols w) : ∃ m, m₀.setAll writes = .ok m ∧ Rep m nRows nCols (cells writes) := by
  induction writes using List.reverseRecOn with
  | nil => exact ⟨_, rfl, h₀⟩
  | append_singleton writes w ih =>
    obtain ⟨m, hrun, hm⟩ := ih fun w hw => hin w (List.mem_append_left _ hw)
    obtain ⟨hi, hj⟩ := hin w (by simp)
    obtain ⟨m', hset, hm'⟩ := hm.set hn hi hj w.val
    refine ⟨m', ?_, ?_⟩
    · rw [Matrix.setAll, foldlM_snoc, ← Matrix.setAll, hrun]
      exact hset
    · rw [cells, List.foldl_append]
      exact hm'

/-! ## With too many cells -/

theorem new_throws (h : maxSize < size64 ((nRows : Int) * nCols)) : Matrix.new nRows nCols = .error lengthError := if_pos h

/-- Where the number of cells has wrapped, some cell inside has no place in the vector. -/
theorem outside (hfew : size64 ((nRows : Int) * nCols) ≤ maxSize) (hn : maxSize < nRows * nCols) :
    ∃ m i j, Matrix.new nRows nCols = .ok m ∧ i < nRows ∧ j < nCols ∧ m.get i j = .error .ub := by
  have hpos : 0 < nCols := by
    rcases Nat.eq_zero_or_pos nCols with rfl | hpos
    · rw [Nat.mul_zero] at hn
      exact absurd hn (by decide)
    · exact hpos
  have hnew : Matrix.new nRows nCols = .ok ⟨List.replicate (size64 ((nRows : Int) * nCols)) 0, nRows, nCols⟩ :=
    if_neg (Nat.not_lt.mpr hfew)
  generalize size64 ((nRows : Int) * nCols) = s at hfew hnew
  have hsize : s < 2 ^ 64 := Nat.lt_of_le_of_lt hfew (by decide)
  have hsplit : s / nCols * nCols + s % nCols = s := Nat.div_add_mod' s nCols
  have hrow : s / nCols < nRows := Nat.div_lt_of_lt_mul (by rw [Nat.mul_comm]; omega)
  refine ⟨_, s / nCols, s % nCols, hnew, hrow, Nat.mod_lt _ hpos, ?_⟩
  have hindex : (⟨List.replicate s 0, nRows, nCols⟩ : Matrix).index (s / nCols) (s % nCols) = s :=
    (index_eq rfl (hsplit.symm ▸ hsize)).trans hsplit
  rw [Matrix.get, hindex, at_, if_pos (Int.natCast_nonneg _), Int.toNat_natCast, List.getElem?_replicate,
    if_neg (Nat.lt_irrefl s)]
  rfl

/-- With coordinates inside the dimensions a matrix is a function of two arguments exactly when it has no more cells than
    a vector can have; otherwise it is not made, or has a cell without a place. -/
theorem row_major_iff (nRows nCols : Nat) :
    (Behaves nRows nCols ↔ nRows * nCols ≤ maxSize) ∧
      (maxSize < nRows * nCols → Matrix.new nRows nCols = .error lengthError ∨
        ∃ m i j, Matrix.new nRows nCols = .ok m ∧ i < nRows ∧ j < nCols ∧ m.get i j = .error .ub) := by
  have hmany : maxSize < nRows * nCols → Matrix.new nRows nCols = .error lengthError ∨
      ∃ m i j, Matrix.new nRows nCols = .ok m ∧ i < nRows ∧ j < nCols ∧ m.get i j = .error .ub := by
    intro hn
    by_cases hfew : maxSize < size64 ((nRows : Int) * nCols)
    · exact Or.inl (new_throws hfew)
    · exact Or.inr (outside (Nat.not_lt.mp hfew) hn)
  refine ⟨⟨?_, ?_⟩, hmany⟩
  · intro hx
    obtain ⟨m₀, hnew, h⟩ := hx
    by_contra hn
    rcases hmany (Nat.not_le.mp hn) with hthrow | ⟨m, i, j, hok, hi, hj, hub⟩
    · rw [hnew] at hthrow
      cases hthrow
    · obtain rfl := Except.ok.inj (hnew.symm.trans hok)
      obtain ⟨m, hrun, hget⟩ := h [] fun w hw => absurd hw List.not_mem_nil
      obtain rfl := Except.ok.inj hrun
      rw [hget i j hi hj] at hub
      cases hub
  · intro hn
    obtain ⟨m₀, hnew, h₀⟩ := rep_new hn
    have hlt : nRows * nCols < 2 ^ 64 := Nat.lt_of_le_of_lt hn (by decide)
    refine ⟨m₀, hnew, fun writes hin => ?_⟩
    obtain ⟨m, hrun, hm⟩ := rep_setAll h₀ hlt hin
    exact ⟨m, hrun, fun i j hi hj => hm.get hlt hi hj⟩

end Wtfsc.RowMajor
