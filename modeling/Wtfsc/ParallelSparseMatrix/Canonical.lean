/-
  Wtfsc.ParallelSparseMatrix.Canonical — the arrays of a compressed-row matrix are a
  normal form (see `Wtfsc.ParallelSparseMatrix.SparseMatrix`).

  - `rep_crs`: the arrays of rows laid end to end are well formed (`Crs`).
  - `rep_unique`: two matrices with the same entries hold the same rows.
  - `sparse_canonical_iff`: every run of in-range `set`s that overflows no `int` leaves a
    well-formed matrix, and two runs that agree on every `get` leave the same arrays,
    whatever their order was.
-/

import Wtfsc.ParallelSparseMatrix.SparseMatrixProofs

namespace Wtfsc.ParallelSparseMatrix

open Wtfsc.Cpp

variable {T : Type}

/-- What a pointer to a vector holds, null read as empty. -/
def entries {α : Type} (p : Option (List α)) : List α := p.getD []

/-- The columns between two row pointers. -/
def colsBetween (A : SparseMatrix T) (rowStart rowEnd : Int) : List Int :=
  ((entries A.cols).drop rowStart.toNat).take (rowEnd - rowStart).toNat

structure Crs [Inhabited T] (A : SparseMatrix T) : Prop where
  rowsLength : (A.rows.length : Int) = A.m + 1
  rowsFirst : A.rows.head? = some 0
  rowsMono : A.rows.Pairwise (· ≤ ·)
  rowsLast : A.rows.getLast? = some ((entries A.vals).length : Int)
  sameLength : (entries A.cols).length = (entries A.vals).length
  inCols : ∀ c ∈ entries A.cols, 0 ≤ c ∧ c < A.n
  sorted : ∀ (i : Nat) (rowStart rowEnd : Int), A.rows[i]? = some rowStart → A.rows[i + 1]? = some rowEnd →
    (colsBetween A rowStart rowEnd).Pairwise (· < ·)
  noDefault : ∀ v ∈ entries A.vals, v ≠ default

/-! ## The arrays of a matrix -/

theorem stored_cols {A : SparseMatrix T} {E : List (Int × T)} (h : Stored A E) : entries A.cols = E.map Prod.fst := by
  rcases h with ⟨hc, -⟩ | ⟨hc, -, rfl⟩
  · rw [hc]; rfl
  · rw [hc]; rfl

theorem stored_vals {A : SparseMatrix T} {E : List (Int × T)} (h : Stored A E) : entries A.vals = E.map Prod.snd := by
  rcases h with ⟨-, hv⟩ | ⟨-, hv, rfl⟩
  · rw [hv]; rfl
  · rw [hv]; rfl

variable [Inhabited T] {A A' : SparseMatrix T} {L L' : List (List (Int × T))}

theorem rep_colsBetween (h : Rep A L) {i : Nat} {rowStart rowEnd : Int} (hs : A.rows[i]? = some rowStart)
    (he : A.rows[i + 1]? = some rowEnd) : ∃ row ∈ L, colsBetween A rowStart rowEnd = row.map Prod.fst := by
  have hi : i < L.length := by
    have hlt : i + 1 < A.rows.length := (List.getElem?_eq_some_iff.mp he).1
    rw [h.rows, ptrs_length] at hlt
    omega
  obtain ⟨hrep, hlen⟩ := rep_at h hi
  obtain ⟨h₁, h₂⟩ := rep_bounds hrep hlen
  have hs' : rowStart = (L.take i).flatten.length := by
    have : at_ A.rows i = .ok rowStart := by simp [at_, hs]
    rw [this] at h₁
    exact Except.ok.inj h₁
  have he' : rowEnd = (L.take i).flatten.length + L[i].length := by
    have : at_ A.rows (i + 1) = .ok rowEnd := by
      rw [at_, if_pos (by omega), show ((i : Int) + 1).toNat = i + 1 by omega, he, deref_some]
    rw [this] at h₂
    exact Except.ok.inj h₂
  refine ⟨L[i], List.getElem_mem hi, ?_⟩
  have hdrop : rowStart.toNat = ((L.take i).flatten.map Prod.fst).length := by rw [List.length_map]; omega
  have htake : (rowEnd - rowStart).toNat = (L[i].map Prod.fst).length := by rw [List.length_map]; omega
  rw [colsBetween, stored_cols (rep_entries hrep), List.map_append, List.map_append, List.append_assoc, hdrop, htake,
    List.drop_left, List.take_left]

theorem rep_crs (h : Rep A L) : Crs A where
  rowsLength := by
    rw [h.rows, ptrs_length, h.m]
    rfl
  rowsFirst := by
    rw [h.rows, ptrs_cons]
    rfl
  rowsMono := by
    rw [h.rows]
    exact ptrs_mono 0 L
  rowsLast := by rw [h.rows, ptrs_getLast, stored_vals h.stored, List.length_map, Int.zero_add]
  sameLength := by rw [stored_cols h.stored, stored_vals h.stored, List.length_map, List.length_map]
  inCols := by
    intro c hc
    rw [stored_cols h.stored] at hc
    obtain ⟨p, hp, rfl⟩ := List.mem_map.mp hc
    obtain ⟨row, hrow, hmem⟩ := List.mem_flatten.mp hp
    exact h.inCols row hrow p hmem
  sorted := by
    intro i rowStart rowEnd hs he
    obtain ⟨row, hrow, hcols⟩ := rep_colsBetween h hs he
    rw [hcols, List.pairwise_map]
    exact (h.canon row hrow).sorted
  noDefault := by
    intro v hv
    rw [stored_vals h.stored] at hv
    obtain ⟨p, hp, rfl⟩ := List.mem_map.mp hv
    obtain ⟨row, hrow, hmem⟩ := List.mem_flatten.mp hp
    exact (h.canon row hrow).noDefault p hmem

/-- The rows are determined by the entries. -/
theorem rep_unique (h : Rep A L) (h' : Rep A' L') (hm : A'.m = A.m) (hn : A'.n = A.n)
    (hget : ∀ r c, InRange A.m A.n r c → get A r c = get A' r c) : L = L' := by
  have hlen : L.length = L'.length := by
    have := h.m
    have := h'.m
    omega
  apply List.ext_getElem hlen
  intro i hi hi'
  have hrow : L[i] ∈ L := List.getElem_mem hi
  have hrow' : L'[i] ∈ L' := List.getElem_mem hi'
  apply SortedAssoc.canon_unique (h.canon _ hrow) (h'.canon _ hrow')
  intro c
  by_cases hc : 0 ≤ c ∧ c < A.n
  · have hin : InRange A.m A.n i c := ⟨by omega, by have := h.m; omega, hc⟩
    have hsame := hget i c hin
    rw [rep_get h hi, rep_get h' hi'] at hsame
    exact Except.ok.inj hsame
  · -- outside the columns both rows are empty
    have hout : ∀ p ∈ L[i], p.1 ≠ c := by
      intro p hp e
      exact hc (e ▸ h.inCols _ hrow p hp)
    have hout' : ∀ p ∈ L'[i], p.1 ≠ c := by
      intro p hp e
      exact hc (e ▸ hn ▸ h'.inCols _ hrow' p hp)
    rw [SortedAssoc.get_of_not_mem hout, SortedAssoc.get_of_not_mem hout']

theorem rep_same (h : Rep A L) (h' : Rep A' L) :
    A.rows = A'.rows ∧ entries A.cols = entries A'.cols ∧ entries A.vals = entries A'.vals := by
  refine ⟨by rw [h.rows, h'.rows], ?_, ?_⟩
  · rw [stored_cols h.stored, stored_cols h'.stored]
  · rw [stored_vals h.stored, stored_vals h'.stored]

variable [DecidableEq T]

/-- The calls on a fresh matrix leave well-formed arrays, and those that any other calls leave
    after which every `get` reads the same. -/
def CanonicalRun (m n : Int) (ks : List (SetCall T)) : Prop :=
  ∃ A₀ A : SparseMatrix T, construct m n = .ok A₀ ∧ setAll A₀ ks = .ok A ∧ A.m = m ∧ A.n = n ∧ Crs A ∧
    ∀ ks' A', (∀ k ∈ ks', InRange m n k.row k.col) → setAll A₀ ks' = .ok A' →
      (∀ r c, InRange m n r c → get A r c = get A' r c) →
      A.rows = A'.rows ∧ entries A.cols = entries A'.cols ∧ entries A.vals = entries A'.vals

/-- Every run of in-range `set`s leaves the normal form of its entries, exactly when `rows + 1`
    and the row pointers stay below 2³¹. -/
theorem sparse_canonical_iff {m n : Int} (hm : 1 ≤ m) (hn : 1 ≤ n) (ks : List (SetCall T))
    (hin : ∀ k ∈ ks, InRange m n k.row k.col) :
    CanonicalRun m n ks ↔ m < 2 ^ 31 - 1 ∧ Room m n (2 ^ 31 - 1) ks := by
  rw [← run_ok_iff hm hn hin]
  constructor
  · intro h
    obtain ⟨A₀, A, hcon, hrun, -⟩ := h
    exact ⟨A₀, A, hcon, hrun⟩
  · intro h
    obtain ⟨A₀, A, hcon, hrun⟩ := h
    obtain ⟨hmA, hnA, ⟨L, hrep, -⟩, -⟩ := run_refines hcon hrun hin
    refine ⟨A₀, A, hcon, hrun, hmA, hnA, rep_crs hrep, fun ks' A' hin' hrun' hget => ?_⟩
    obtain ⟨hmA', hnA', ⟨L', hrep', -⟩, -⟩ := run_refines hcon hrun' hin'
    have hL : L = L' := by
      apply rep_unique hrep hrep' (hmA'.trans hmA.symm) (hnA'.trans hnA.symm)
      rw [hmA, hnA]
      exact hget
    subst hL
    exact rep_same hrep hrep'

theorem sparse_canonical_reordered :
    ∃ A A' : SparseMatrix Int, (construct 2 2 >>= fun A₀ => setAll A₀ [⟨1, 0, 7⟩, ⟨0, 1, 5⟩]) = .ok A ∧
      (construct 2 2 >>= fun A₀ => setAll A₀ [⟨0, 1, 2⟩, ⟨0, 0, 1⟩, ⟨1, 0, 7⟩, ⟨0, 0, 0⟩, ⟨0, 1, 5⟩]) = .ok A' ∧
      A.rows = A'.rows ∧ entries A.cols = entries A'.cols ∧ entries A.vals = entries A'.vals := by
  obtain ⟨A₀, A, hcon, hrun, -, -, -, hsame⟩ := (sparse_canonical_iff (T := Int) (m := 2) (n := 2) (by decide)
    (by decide) [⟨1, 0, 7⟩, ⟨0, 1, 5⟩] (by simp [InRange])).mpr ⟨by decide, room_small (by decide) _⟩
  obtain rfl := Except.ok.inj hcon
  obtain rfl := Except.ok.inj hrun
  refine ⟨_, _, rfl, rfl, hsame [⟨0, 1, 2⟩, ⟨0, 0, 1⟩, ⟨1, 0, 7⟩, ⟨0, 0, 0⟩, ⟨0, 1, 5⟩] _ (by simp [InRange]) rfl ?_⟩
  intro r c h
  obtain ⟨hr, hr', hc, hc'⟩ := h
  obtain rfl | rfl : r = 0 ∨ r = 1 := by omega
  · obtain rfl | rfl : c = 0 ∨ c = 1 := by omega
    · rfl
    · rfl
  · obtain rfl | rfl : c = 0 ∨ c = 1 := by omega
    · rfl
    · rfl

/-- With 2³¹ - 1 rows there are no arrays at all. -/
theorem no_arrays_of_the_tallest : ¬CanonicalRun (2 ^ 31 - 1) 1 ([] : List (SetCall Int)) := by
  intro h
  obtain ⟨A₀, A, hcon, -⟩ := h
  cases hcon

end Wtfsc.ParallelSparseMatrix
