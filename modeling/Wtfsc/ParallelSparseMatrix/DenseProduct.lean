/-
  Wtfsc.ParallelSparseMatrix.DenseProduct — `multiply` is the product with the dense
  matrix (see `Wtfsc.ParallelSparseMatrix.Product`).

  The scan of a row meets the stored pairs only; where `T()` is the zero of `+` and
  absorbs products from the left, the pairs it skips add nothing, so a row gives the sum
  over all columns (`rowDot_dense`), for a row without pairs too. `+` is `AddCommMonoid`'s,
  and the code's `T()` is its zero.
-/

import Mathlib.Data.Fintype.Basic
import Wtfsc.ParallelSparseMatrix.Product

namespace Wtfsc.ParallelSparseMatrix

open Wtfsc.Cpp

variable {T : Type} [Inhabited T] [AddCommMonoid T] [Mul T]
variable {row : List (Int × T)} {x x' : List T}

theorem rowDot_sum (h0 : (default : T) = 0) (x : List T) (row : List (Int × T)) :
    rowDot x row = (row.map fun p => p.2 * x[p.1.toNat]?.getD default).sum := by
  have hacc : ∀ a : T, row.foldl (fun sum p => sum + p.2 * x[p.1.toNat]?.getD default) a =
      a + (row.map fun p => p.2 * x[p.1.toNat]?.getD default).sum := by
    intro a
    induction row generalizing a with
    | nil => simp
    | cons p row ih => rw [List.foldl_cons, ih, List.map_cons, List.sum_cons, add_assoc]
  rw [rowDot, hacc, h0, zero_add]

/-- The sum over a row is the sum over all columns. -/
theorem rowDot_dense (h0 : (default : T) = 0) (hmul : ∀ a : T, 0 * a = 0) (hc : SortedAssoc.Canon row)
    (hin : ∀ p ∈ row, 0 ≤ p.1 ∧ p.1 < x.length) :
    rowDot x row = ∑ j : Fin x.length, SortedAssoc.get row (j : Int) * x[j] := by
  have hS : ∀ p ∈ row, p.1 ∈ (Finset.univ : Finset (Fin x.length)).image fun j : Fin x.length => (j : Int) := by
    intro p hp
    obtain ⟨hp0, hlt⟩ := hin p hp
    have hj : p.1.toNat < x.length := by omega
    exact Finset.mem_image.mpr ⟨⟨p.1.toNat, hj⟩, Finset.mem_univ _, Int.toNat_of_nonneg hp0⟩
  have hinj : ∀ i ∈ (Finset.univ : Finset (Fin x.length)), ∀ j ∈ (Finset.univ : Finset (Fin x.length)),
      ((i : Nat) : Int) = ((j : Nat) : Int) → i = j := by
    intro i _ j _ h
    apply Fin.ext
    omega
  have hskip : ∀ k : Int, default * x[k.toNat]?.getD default = (0 : T) := by
    intro k
    rw [h0, hmul]
  rw [rowDot_sum h0, SortedAssoc.sum_get (fun k v => v * x[k.toNat]?.getD default) hskip hc hS, Finset.sum_image hinj]
  apply Finset.sum_congr rfl
  intro j _
  rw [Int.toNat_natCast, List.getElem?_eq_getElem j.isLt]
  rfl

theorem rowDot_add (h0 : (default : T) = 0) (hdist : ∀ a b c : T, a * (b + c) = a * b + a * c)
    (hin : ∀ p ∈ row, 0 ≤ p.1 ∧ p.1 < x.length) (hlen : x'.length = x.length) :
    rowDot (List.zipWith (· + ·) x x') row = rowDot x row + rowDot x' row := by
  have hadd : row.map (fun p => p.2 * (List.zipWith (· + ·) x x')[p.1.toNat]?.getD default) =
      row.map fun p => p.2 * x[p.1.toNat]?.getD default + p.2 * x'[p.1.toNat]?.getD default := by
    apply List.map_congr_left
    intro p hp
    obtain ⟨hp0, hlt⟩ := hin p hp
    have hj : p.1.toNat < x.length := by omega
    have hj' : p.1.toNat < x'.length := by omega
    rw [List.getElem?_zipWith, List.getElem?_eq_getElem hj, List.getElem?_eq_getElem hj']
    exact hdist _ _ _
  rw [rowDot_sum h0, rowDot_sum h0, rowDot_sum h0, hadd, List.sum_map_add]

variable {A : SparseMatrix T} {L : List (List (Int × T))}

theorem multiply_add (h0 : (default : T) = 0) (hdist : ∀ a b c : T, a * (b + c) = a * b + a * c) (h : Rep A L)
    (hx : A.n = int32 x.length) (hlen : x'.length = x.length) :
    multiply A (List.zipWith (· + ·) x x') =
      .ok (List.zipWith (· + ·) (L.map (rowDot x)) (L.map (rowDot x'))) := by
  have hzip : (List.zipWith (· + ·) x x').length = x.length := by rw [List.length_zipWith, hlen, Nat.min_self]
  have hle : A.n ≤ x.length := hx.trans_le (int32_le (by omega))
  rw [multiply_rep h (by rw [hzip, hx]), List.zipWith_map, List.zipWith_self]
  congr 1
  apply List.map_congr_left
  intro row hrow
  apply rowDot_add h0 hdist _ hlen
  intro p hp
  obtain ⟨hp0, hlt⟩ := h.inCols row hrow p hp
  exact ⟨hp0, by omega⟩

variable [DecidableEq T]

/-- After the calls on a fresh matrix `multiply` gives in each row the sum over all columns of
    the entry `get` reads times the vector's, and is additive where `*` distributes. -/
def ProductRun (m n : Int) (ks : List (SetCall T)) : Prop :=
  ∃ (A₀ A : SparseMatrix T) (d : Int → Int → T), construct m n = .ok A₀ ∧ setAll A₀ ks = .ok A ∧
    (∀ i j, InRange m n i j → get A i j = .ok (d i j)) ∧
    (∀ x : List T, (x.length : Int) = n → ∃ y, multiply A x = .ok y ∧ (y.length : Int) = m ∧
      ∀ i : Fin y.length, y[i] = ∑ j : Fin x.length, d i j * x[j]) ∧
    ((∀ a b c : T, a * (b + c) = a * b + a * c) →
      ∀ x x' : List T, (x.length : Int) = n → (x'.length : Int) = n →
        ∃ y y', multiply A x = .ok y ∧ multiply A x' = .ok y' ∧
          multiply A (List.zipWith (· + ·) x x') = .ok (List.zipWith (· + ·) y y'))

/-- `multiply` is the dense product after any run of in-range `set`s, exactly when `rows + 1`
    and the row pointers stay below 2³¹. -/
theorem multiply_dense_iff {m n : Int} (hm : 1 ≤ m) (hn : 1 ≤ n) (hint : n < 2 ^ 31) (h0 : (default : T) = 0)
    (hmul : ∀ a : T, 0 * a = 0) (ks : List (SetCall T)) (hin : ∀ k ∈ ks, InRange m n k.row k.col) :
    ProductRun m n ks ↔ m < 2 ^ 31 - 1 ∧ Room m n (2 ^ 31 - 1) ks := by
  rw [← run_ok_iff hm hn hin]
  constructor
  · intro h
    obtain ⟨A₀, A, d, hcon, hrun, -⟩ := h
    exact ⟨A₀, A, hcon, hrun⟩
  intro h
  obtain ⟨A₀, A, hcon, hrun⟩ := h
  obtain ⟨hAm, hAn, href, -⟩ := run_refines hcon hrun hin
  have hget : ∀ i j, InRange m n i j → get A i j = .ok (lastSet ks i j) := by
    intro i j hij
    exact get_refines href (by rw [hAm, hAn]; exact hij)
  obtain ⟨L, hL, -⟩ := href
  have hLm : (L.length : Int) = m := by rw [← hL.m, hAm]
  have hsize : ∀ x : List T, (x.length : Int) = n → A.n = int32 x.length := by
    intro x hx
    rw [hx, int32_eq (by omega) hint, hAn]
  refine ⟨A₀, A, lastSet ks, hcon, hrun, hget, fun x hx => ?_, fun hdist x x' hx hx' => ?_⟩
  · refine ⟨L.map (rowDot x), multiply_rep hL (hsize x hx), by rw [List.length_map, hLm], ?_⟩
    intro i
    have hi : (i : Nat) < L.length := by simpa using i.isLt
    have hrow : L[(i : Nat)] ∈ L := List.getElem_mem hi
    have hcols : ∀ p ∈ L[(i : Nat)], 0 ≤ p.1 ∧ p.1 < x.length := by
      intro p hp
      rw [hx, ← hAn]
      exact hL.inCols _ hrow p hp
    have hval : (L.map (rowDot x))[i] = rowDot x L[(i : Nat)] := by simp
    rw [hval, rowDot_dense h0 hmul (hL.canon _ hrow) hcols]
    apply Finset.sum_congr rfl
    intro j _
    have hentry := hget i j ⟨by omega, by omega, by omega, by omega⟩
    rw [rep_get hL hi] at hentry
    rw [Except.ok.inj hentry]
  · have hlen : x'.length = x.length := by omega
    exact ⟨_, _, multiply_rep hL (hsize x hx), multiply_rep hL (hsize x' hx'),
      multiply_add h0 hdist hL (hsize x hx) hlen⟩

theorem multiply_dense_two :
    ∃ (A₀ A : SparseMatrix Int) (d : Int → Int → Int), construct 2 2 = .ok A₀ ∧
      setAll A₀ [⟨0, 1, 5⟩, ⟨1, 0, 7⟩] = .ok A ∧
      ∃ y, multiply A [2, 3] = .ok y ∧ (y.length : Int) = 2 ∧
        ∀ i : Fin y.length, y[i] = ∑ j : Fin 2, d i j * [2, 3][j] := by
  obtain ⟨A₀, A, d, hcon, hrun, -, hmul, -⟩ := (multiply_dense_iff (T := Int) (m := 2) (n := 2) (by decide) (by decide)
    (by decide) rfl Int.zero_mul [⟨0, 1, 5⟩, ⟨1, 0, 7⟩] (by simp [InRange])).mpr ⟨by decide, room_small (by decide) _⟩
  exact ⟨A₀, A, d, hcon, hrun, hmul [2, 3] rfl⟩

/-- With 2³¹ - 1 rows there is no matrix to multiply. -/
theorem no_product_of_the_tallest : ¬ProductRun (2 ^ 31 - 1) 1 ([] : List (SetCall Int)) := by
  intro h
  obtain ⟨A₀, A, d, hcon, -⟩ := h
  cases hcon

end Wtfsc.ParallelSparseMatrix
