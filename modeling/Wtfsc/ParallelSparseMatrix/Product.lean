/-
  Wtfsc.ParallelSparseMatrix.Product — the product of a compressed-row matrix with a vector
  (see `Wtfsc.ParallelSparseMatrix.SparseMatrix`).

  A row gives `rowDot`, the sum of its stored values times the vector's. `multiply` is
  these sums row by row (`multiply_rep`) and `multiplyRow` one of them
  (`multiplyRow_rep`), for the matrix without arrays too.
-/

import Wtfsc.ParallelSparseMatrix.SparseMatrixProofs

namespace Wtfsc.ParallelSparseMatrix

open Wtfsc.Cpp

variable {T : Type} [Inhabited T]

theorem at_inside {x : List T} {i : Int} (h : 0 ≤ i) (hlt : i < x.length) :
    at_ x i = .ok (x[i.toNat]?.getD default) := by
  have hi : i.toNat < x.length := by omega
  rw [at_, if_pos h, List.getElem?_eq_getElem hi]
  rfl

theorem rep_null {A : SparseMatrix T} {L : List (List (Int × T))} {row : List (Int × T)} (h : Rep A L)
    (hv : A.vals = none) (hrow : row ∈ L) : row = [] := by
  rcases h.stored with ⟨-, hs⟩ | ⟨-, -, hE⟩
  · rw [hv] at hs
    cases hs
  · exact List.flatten_eq_nil_iff.mp hE row hrow

variable [Add T] [Mul T]

/-- The sum over a row, from `T()` on. -/
def rowDot (x : List T) (row : List (Int × T)) : T :=
  row.foldl (fun sum p => sum + p.2 * x[p.1.toNat]?.getD default) default

variable {A : SparseMatrix T} {L P S : List (List (Int × T))} {row : List (Int × T)} {x : List T} {i : Int}

theorem sumLoop_spec (E₁ row E₂ : List (Int × T)) {pos : Int} (sum : T) (h : Stored A (E₁ ++ row ++ E₂))
    (hpos : pos = E₁.length) (hin : ∀ p ∈ row, 0 ≤ p.1 ∧ p.1 < x.length) :
    sumLoop A x row.length pos sum = .ok (row.foldl (fun sum p => sum + p.2 * x[p.1.toNat]?.getD default) sum) := by
  induction row generalizing E₁ pos sum with
  | nil => rfl
  | cons p row ih =>
    obtain ⟨hc, hv⟩ := stored_some h (by simp)
    have e : E₁ ++ p :: row ++ E₂ = E₁ ++ p :: (row ++ E₂) := by simp
    rw [e, List.map_append, List.map_cons] at hc hv
    have hl : pos = (E₁.map Prod.fst).length := by simpa using hpos
    have hr : pos = (E₁.map Prod.snd).length := by simpa using hpos
    obtain ⟨h0, hlt⟩ := hin p List.mem_cons_self
    have hrest : Stored A ((E₁ ++ [p]) ++ row ++ E₂) := by simpa using h
    have hnext : pos + 1 = (E₁ ++ [p]).length := by simp; omega
    simp only [List.length_cons, sumLoop, hc, hv, deref_some, ok_bind, at_split _ _ _ hl, at_split _ _ _ hr,
      at_inside h0 hlt]
    exact ih (E₁ ++ [p]) _ hrest hnext fun q hq => hin q (List.mem_cons_of_mem _ hq)

/-- A row of a matrix no wider than the vector. -/
theorem rowSum_rep (h : Rep A (P ++ row :: S)) (hi : i = P.length) (hx : A.n ≤ x.length) :
    rowSum A i x = .ok (rowDot x row) := by
  obtain ⟨h₁, h₂⟩ := rep_bounds h hi
  have hlen : ((P.flatten.length : Int) + row.length - P.flatten.length).toNat = row.length := by omega
  have hin : ∀ p ∈ row, 0 ≤ p.1 ∧ p.1 < x.length := by
    intro p hp
    obtain ⟨h0, hn⟩ := h.inCols row (by simp) p hp
    exact ⟨h0, by omega⟩
  simp only [rowSum, h₁, h₂, ok_bind, hlen]
  exact sumLoop_spec P.flatten row S.flatten default (rep_entries h) rfl hin

theorem multiplyLoop_spec {X Y : List T} (h : Rep A (P ++ L)) (hx : A.n ≤ x.length) (hX : X.length = P.length)
    (hY : Y.length = L.length) :
    multiplyLoop A x L.length P.length (X ++ Y) = .ok (X ++ L.map (rowDot x)) := by
  induction L generalizing P X Y with
  | nil =>
    rw [List.length_eq_zero_iff.mp hY]
    rfl
  | cons row L ih =>
    obtain ⟨y, Y, rfl⟩ := List.exists_cons_of_length_eq_add_one hY
    have hrest : Rep A ((P ++ [row]) ++ L) := by simpa using h
    have hX' : (X ++ [rowDot x row]).length = (P ++ [row]).length := by simp [hX]
    have hrun := ih hrest hX' (Nat.succ.inj hY)
    have hset : setAt (X ++ y :: Y) P.length (rowDot x row) = .ok (X ++ rowDot x row :: Y) :=
      setAt_split _ _ _ _ (by rw [hX])
    simp only [List.length_cons, multiplyLoop, rowSum_rep h rfl hx, hset, ok_bind]
    simpa using hrun

theorem multiply_rep (h : Rep A L) (hx : A.n = int32 x.length) : multiply A x = .ok (L.map (rowDot x)) := by
  have hle : A.n ≤ x.length := hx.trans_le (int32_le (by omega))
  have hm : A.m.toNat = L.length := by rw [h.m, Int.toNat_natCast]
  rw [multiply, if_neg (not_not.mpr hx)]
  dsimp only
  split
  · next hv =>
    have hnull : L.map (rowDot x) = L.map fun _ => default := List.map_congr_left fun row hrow => by
      rw [rep_null h hv hrow]
      rfl
    rw [hnull, List.map_const', hm]
  · rw [hm]
    have hrun := multiplyLoop_spec (P := []) (X := []) h hle rfl (List.length_replicate (n := L.length) (a := default))
    exact hrun

theorem multiplyRow_rep (h : Rep A (P ++ row :: S)) (hi : i = P.length) (hx : A.n = int32 x.length) :
    multiplyRow A i x = .ok (rowDot x row) := by
  have hle : A.n ≤ x.length := hx.trans_le (int32_le (by omega))
  rw [multiplyRow, if_neg (not_not.mpr hx)]
  split
  · next hv =>
    rw [rep_null h hv (by simp : row ∈ P ++ row :: S)]
    rfl
  · exact rowSum_rep h hi hle

/-- `multiply` gives a value for every row, and it is the one that `multiplyRow` gives. -/
theorem multiply_refines {d : Int → Int → T} (h : Refines A d) (hx : A.n = int32 x.length) :
    ∃ y, multiply A x = .ok y ∧ y.length = A.m ∧ ∀ i (hi : i < y.length), multiplyRow A i x = .ok y[i] := by
  obtain ⟨L, hL, -⟩ := h
  refine ⟨_, multiply_rep hL hx, by rw [List.length_map, hL.m], fun i hi => ?_⟩
  have hlt : i < L.length := by simpa using hi
  obtain ⟨hrep, hlen⟩ := rep_at hL hlt
  rw [multiplyRow_rep hrep hlen hx, List.getElem_map]

theorem multiply_mismatch (hx : A.n ≠ int32 x.length) : multiply A x = .error sizeMismatch := if_pos hx

theorem multiplyRow_mismatch (hx : A.n ≠ int32 x.length) : multiplyRow A i x = .error sizeMismatch := if_pos hx

end Wtfsc.ParallelSparseMatrix
